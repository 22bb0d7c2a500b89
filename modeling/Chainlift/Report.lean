import Chainlift.Stats

/-!
# Reports

The statistics of the documents of a run and of all of them together, written as JSON with two spaces of indentation.
-/

namespace Chainlift

structure Report where
  files : List (String × Stats)
  total : Stats
  deriving DecidableEq, Repr

namespace Report

/-- The report on documents, each with its path. -/
def ofFiles (files : List (String × Stats)) : Report :=
  ⟨files, files.foldl (fun total (_, stats) => total.merge stats) .start⟩

/-! ## JSON -/

/-- A character inside a JSON string. -/
def escapeChar (c : Char) : List Char :=
  match c with
  | '"' => ['\\', '"']
  | '\\' => ['\\', '\\']
  | '\n' => ['\\', 'n']
  | '\r' => ['\\', 'r']
  | '\t' => ['\\', 't']
  | '\x08' => ['\\', 'b']
  | '\x0c' => ['\\', 'f']
  | c =>
    if c.toNat < 32 then
      let ds := Nat.toDigits 16 c.toNat
      "\\u".toList ++ List.replicate (4 - ds.length) '0' ++ ds
    else [c]

def quoted (s : String) : String := "\"" ++ String.ofList (s.toList.flatMap escapeChar) ++ "\""

/-- Names and values between braces. -/
def object (indent : String) (fields : List (String × String)) : String :=
  let line := fun (name, value) => indent ++ "  " ++ quoted name ++ ": " ++ value
  "\x7b\n" ++ ",\n".intercalate (fields.map line) ++ "\n" ++ indent ++ "\x7d"

def statsFields (s : Stats) : List (String × String) :=
  [("optional_chains", toString s.chains), ("nullish_coalescing", toString s.coalescings),
   ("declarations_removed", toString s.removed), ("passes", toString s.passes),
   ("converged", if s.converged then "true" else "false")]

def fileText (file : String × Stats) : String :=
  "    " ++ object "    " (("path", quoted file.1) :: statsFields file.2)

def filesText (files : List (String × Stats)) : String :=
  if files.isEmpty then "[]" else "[\n" ++ ",\n".intercalate (files.map fileText) ++ "\n  ]"

/-- The report as JSON, with a line break after it. -/
def text (r : Report) : String :=
  object "" [("files", filesText r.files), ("total", object "  " (statsFields r.total))] ++ "\n"

end Report

end Chainlift
