import PointsTo.Program.Basic
import PointsTo.Text.Split

/-!
# Queries on the command line

A query is written `METHOD:LABEL:VALUE`: a variable next to the labelled point of a method. Reading
and writing are inverse to each other, since no part holds a colon (`text_of_ofText?_eq_some`).
-/

namespace PointsTo.CommandLine

structure QuerySpec where
  method : String
  label : String
  value : String
deriving DecidableEq, Inhabited

namespace QuerySpec

def text (s : QuerySpec) : String := s!"{s.method}:{s.label}:{s.value}"

/-- Reads three parts between colons, none of them empty. -/
def ofText? (text : String) : Option QuerySpec :=
  match Text.pieces ':' text.toList with
  | [method, label, value] =>
    if method.isEmpty || label.isEmpty || value.isEmpty then none
    else some ⟨String.ofList method, String.ofList label, String.ofList value⟩
  | _ => none

/-- What is said about a text that is no query. -/
def expected (text : String) : String := s!"Expected METHOD:LABEL:VALUE, found '{text}'"

/-- The fact that the query is about, if the program has the label. -/
def resolve? (s : QuerySpec) (program : Program) : Option Fact :=
  (program.point? ⟨s.method⟩ s.label).map fun point => ⟨point, ⟨s.value, ⟨s.method⟩⟩⟩

/-- What is said about a query whose label the program does not have. -/
def unresolved (s : QuerySpec) : String := s!"No statement labelled {s.method}:{s.label}"

/-- What is read is what was written. -/
theorem text_of_ofText?_eq_some {t : String} {s : QuerySpec} (h : ofText? t = some s) :
    s.text = t := by
  unfold ofText? at h
  split at h
  · next method label value hp =>
    split at h
    · simp at h
    · obtain rfl := Option.some.inj h
      have := Text.join_pieces ':' t.toList
      rw [hp] at this
      simp only [Text.join] at this
      apply String.toList_inj.1
      rw [← this]
      simp [text, toString, String.toList_append]
  · simp at h

end QuerySpec

end PointsTo.CommandLine
