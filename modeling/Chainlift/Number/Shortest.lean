import Chainlift.Number.Double

/-!
# Shortest decimals

The shortest decimal that reads back as a given double (`Double.shortest`), and the spelling of a number in output
(`Double.text`): small integers are written plainly, and every other number in the shortest of a few equivalent spellings.
-/

namespace Chainlift

/-- The number `digits * 10 ^ exponent`. -/
structure Decimal where
  digits : Nat
  exponent : Int
  deriving DecidableEq, Repr

namespace Double

/-- The reals that read as a positive double, as fractions over four times its own denominator: the lower end, the value,
the upper end, that denominator, and whether the ends belong to it. -/
structure Basin where
  lower : Nat
  value : Nat
  upper : Nat
  den : Nat
  closed : Bool

/-- Half a unit on each side, but a quarter below a power of two, where the doubles are twice as dense. -/
def basin (s : Nat) (e : Int) : Basin :=
  let below := if s = Nat.pow 2 52 ∧ -1074 < e then 1 else 2
  let up := if 0 ≤ e then Nat.pow 2 e.toNat else 1
  let den := if 0 ≤ e then 4 else 4 * Nat.pow 2 (-e).toNat
  { lower := (4 * s - below) * up, value := 4 * s * up, upper := (4 * s + 2) * up, den, closed := s % 2 = 0 }

/-- The place of the leading decimal digit: the `k` with `10 ^ (k - 1) ≤ num / den < 10 ^ k`. -/
def leadingPlace (num den : Nat) : Int :=
  if den ≤ num then (Nat.toDigits 10 (num / den)).length
  else go 400 num 0
where
  go : Nat → Nat → Int → Int
    | 0, _, k => k
    | fuel + 1, n, k => if den ≤ n * 10 then k else go fuel (n * 10) (k - 1)

/-- The candidate `c * 10 ^ k` as a numerator over `b.den` and a common factor, compared with the ends of the basin. -/
def Basin.holds (b : Basin) (c : Nat) (k : Int) : Bool :=
  let (x, f) := if 0 ≤ k then (c * Nat.pow 10 k.toNat * b.den, 1) else (c * b.den, Nat.pow 10 (-k).toNat)
  if b.closed then b.lower * f ≤ x && x ≤ b.upper * f else b.lower * f < x && x < b.upper * f

/-- The two neighbours of the value on the grid of multiples of `10 ^ k`, of those inside the basin the nearer one. -/
def Basin.onGrid (b : Basin) (k : Int) : Option Nat :=
  let (num, den) := if 0 ≤ k then (b.value, b.den * Nat.pow 10 k.toNat) else (b.value * Nat.pow 10 (-k).toNat, b.den)
  let c := num / den
  let r := num % den
  match b.holds c k && c != 0, b.holds (c + 1) k with
  | true, true => some (if 2 * r < den then c else if den < 2 * r then c + 1 else c + c % 2)
  | true, false => some c
  | false, true => some (c + 1)
  | false, false => none

/-- The shortest decimal that reads back as the double, the nearest of those; none for zero and infinity. -/
def shortest? : Double → Option Decimal
  | .infinite => none
  | .finite s e =>
    if s = 0 then none
    else
      let b := basin s e
      let place := leadingPlace b.value b.den
      (List.range 17).findSome? fun (n : Nat) =>
        let k := place - (n + 1)
        (b.onGrid k).map fun c => trim 20 ⟨c, k⟩
where
  /-- Trailing zeros go into the exponent. -/
  trim : Nat → Decimal → Decimal
    | 0, d => d
    | fuel + 1, d => if d.digits % 10 = 0 ∧ d.digits ≠ 0 then trim fuel ⟨d.digits / 10, d.exponent + 1⟩ else d

def digitChars (n : Nat) : List Char := Nat.toDigits 10 n

/-- Positional notation from `1e-6` up to `1e21`, otherwise one digit before the point and an exponent without a plus sign.
Positional numbers below one start at the point. -/
def positional (d : Decimal) : List Char :=
  let s := digitChars d.digits
  let k : Int := s.length
  let n := k + d.exponent
  if k ≤ n ∧ n ≤ 21 then s ++ List.replicate (n - k).toNat '0'
  else if 0 < n ∧ n ≤ 21 then s.take n.toNat ++ ['.'] ++ s.drop n.toNat
  else if -6 < n ∧ n ≤ 0 then ['.'] ++ List.replicate (-n).toNat '0' ++ s
  else
    let mantissa := match s with
      | [] => []
      | [c] => [c]
      | c :: rest => c :: '.' :: rest
    let e := n - 1
    mantissa ++ ['e'] ++ (if e < 0 then '-' :: digitChars (-e).toNat else digitChars e.toNat)

/-- The other spellings of a number that is not a small integer: hexadecimal for an integer, and with an exponent that
stands for leading or trailing zeros or for the point. -/
def alternatives (x : Double) (s : List Char) : List (List Char) :=
  let hex := match x.toNat? with
    | some n => ['0' :: 'x' :: Nat.toDigits 16 n]
    | none => []
  let fromPoint := match s with
    | '.' :: '0' :: _ =>
      let zeros := (s.drop 1).takeWhile (· == '0')
      let rest := (s.drop 1).dropWhile (· == '0')
      [rest ++ ['e', '-'] ++ digitChars (rest.length + zeros.length)]
    | _ => []
  let fromEnd :=
    if s.getLast? = some '0' then
      let zeros := s.reverse.takeWhile (· == '0')
      [(s.reverse.dropWhile (· == '0')).reverse ++ ['e'] ++ digitChars zeros.length]
    else
      let whole := s.takeWhile (· != '.')
      let tail := (s.dropWhile (· != '.')).drop 1
      let point := tail.takeWhile (· != 'e')
      match tail.dropWhile (· != 'e') with
      | 'e' :: '-' :: ds => [whole ++ point ++ ['e', '-'] ++ digitChars (readNat ds + point.length)]
      | 'e' :: ds =>
        let e : Int := (readNat ds : Int) - point.length
        [whole ++ point ++ ['e'] ++ (if e < 0 then '-' :: digitChars (-e).toNat else digitChars e.toNat)]
      | _ => []
  hex ++ fromPoint ++ fromEnd
where
  readNat (ds : List Char) : Nat := ds.foldl (fun n c => n * 10 + (c.toNat - 48)) 0

/-- Integers below a thousand are written plainly; every other number in the first of its shortest spellings. -/
def text (x : Double) : String :=
  match x, x.shortest? with
  | .infinite, _ => "Infinity"
  | _, none => "0"
  | x, some d =>
    let s := positional d
    match x.toNat? with
    | some n => if n < 1000 then String.ofList s else pick x s
    | none => pick x s
where
  pick (x : Double) (s : List Char) : String :=
    String.ofList ((alternatives x s).foldl (fun best c => if c.length < best.length then c else best) s)

end Double

end Chainlift
