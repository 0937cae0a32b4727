import Mathlib.Data.List.Infix
import PointsTo.Dot
import PointsTo.Text.Split

/-!
# Joining brackets

Brackets are joined in the whole text of a graph, labels included. A closing bracket with an opening
one behind it is a seam, and a text without one is `Seamless`. Escaping makes no seams
(`Seamless.ascii`), so if there are none in the labels, they are all between attributes. Then the
text is what one gets by writing all attributes of a statement into one pair of brackets
(`Graph.text_eq_joined`), and all labels stand in it as they are.
-/

namespace PointsTo

open Text

namespace Dot

/-- No closing bracket is followed by an opening one. -/
def Seamless (text : List Char) : Prop := ¬ [']', '['] <:+: text

instance : DecidablePred Seamless := fun _ => inferInstanceAs (Decidable (¬ _))

/-- There are no brackets in the text. -/
def Plain (text : List Char) : Prop := ']' ∉ text ∧ '[' ∉ text

instance : DecidablePred Plain := fun _ => inferInstanceAs (Decidable (_ ∧ _))

/-- The text has no seams, and there is none where it is put behind another one. -/
structure Smooth (text : List Char) : Prop where
  seamless : Seamless text
  head : text.head? ≠ some '['

variable {a b text rest : List Char} {c : Char}

/-! ## Texts without seams -/

theorem seamless_of_not_mem (h : ']' ∉ text ∨ '[' ∉ text) : Seamless text := by
  intro seam
  obtain none | none := h
  · exact none (seam.subset (by simp))
  · exact none (seam.subset (by simp))

/-- There is no seam where two texts meet unless the first one ends with half of it and the second
one begins with the other half. -/
theorem Seamless.append (ha : Seamless a) (hb : Seamless b)
    (apart : a.getLast? ≠ some ']' ∨ b.head? ≠ some '[') : Seamless (a ++ b) := by
  intro seam
  obtain seam | seam | ⟨front, back, parts, hf, hb'⟩ := List.infix_append_iff.1 seam
  · exact ha seam
  · exact hb seam
  · match front, parts with
    | [], parts =>
      obtain rfl : [']', '['] = back := parts
      exact hb hb'.isInfix
    | [_], parts =>
      obtain ⟨rfl, rfl⟩ := List.cons.inj parts
      obtain ⟨a', rfl⟩ := hf
      obtain ⟨b', rfl⟩ := hb'
      simp at apart
    | [_, _], parts =>
      obtain ⟨rfl, rfl, rfl⟩ : ']' = _ ∧ '[' = _ ∧ [] = back := by simpa using parts
      exact ha hf.isInfix

theorem Seamless.of_cons (h : Seamless (c :: text)) : Seamless text :=
  fun seam => h (seam.trans (List.suffix_cons c text).isInfix)

/-- The two halves of a seam do not follow each other. -/
theorem Seamless.head?_ne (h : Seamless (']' :: text)) : text.head? ≠ some '[' := by
  intro first
  obtain ⟨rest, rfl⟩ := List.head?_eq_some_iff.1 first
  exact h ⟨[], rest, rfl⟩

theorem smooth_of_not_mem (h : '[' ∉ text) : Smooth text :=
  ⟨seamless_of_not_mem (.inr h), fun first => h (List.mem_of_mem_head? first)⟩

theorem Plain.smooth (h : Plain text) : Smooth text := smooth_of_not_mem h.2

theorem Smooth.append (ha : Smooth a) (hb : Smooth b) : Smooth (a ++ b) where
  seamless := ha.seamless.append hb.seamless (.inr hb.head)
  head :=
    match a, ha with
    | [], _ => hb.head
    | _ :: _, ha => ha.head

/-! ## Escaped texts -/

/-- A character is kept, or it is escaped without brackets. -/
theorem asciiChar_cases (c : Char) : Escape.asciiChar c = [c] ∨
    Escape.asciiChar c ≠ [] ∧ Plain (Escape.asciiChar c) := by
  unfold Escape.asciiChar
  split
  · next m hm =>
    refine .inr ⟨by simp, ?_⟩
    unfold Escape.marked? at hm
    split at hm <;> simp at hm <;> subst hm <;> decide
  · split
    · exact .inr ⟨by simp, by next hc => subst hc; decide⟩
    · split
      · exact .inl rfl
      · have digits : Plain (Nat.toDigits 16 c.toNat) := by
          have digit : ∀ n : Fin 16, Nat.digitChar n ≠ ']' ∧ Nat.digitChar n ≠ '[' := by decide
          constructor
          · intro hm
            obtain ⟨n, hn, e⟩ := Escape.exists_digitChar_of_mem_toDigits hm
            exact (digit ⟨n, hn⟩).1 e.symm
          · intro hm
            obtain ⟨n, hn, e⟩ := Escape.exists_digitChar_of_mem_toDigits hm
            exact (digit ⟨n, hn⟩).2 e.symm
        exact .inr ⟨by simp [Escape.byNumber], by simpa [Plain, Escape.byNumber] using digits⟩

theorem head?_ascii (h : (Escape.ascii text).head? = some '[') : text.head? = some '[' := by
  cases text with
  | nil => cases h
  | cons c text =>
    rw [Escape.ascii, List.flatMap_cons] at h
    obtain kept | ⟨some, other⟩ := asciiChar_cases c
    · rw [kept] at h
      exact h
    · rw [List.head?_append_of_ne_nil _ some] at h
      exact absurd (List.mem_of_mem_head? h) other.2

/-- Escaping makes no seams. -/
theorem Seamless.ascii (h : Seamless text) : Seamless (Escape.ascii text) := by
  induction text with
  | nil => exact h
  | cons c text ih =>
    have escaped := ih h.of_cons
    rw [Escape.ascii, List.flatMap_cons]
    obtain kept | ⟨-, other⟩ := asciiChar_cases c
    · rw [kept]
      refine Seamless.append (seamless_of_not_mem ?_) escaped ?_
      · by_cases hc : c = ']'
        · exact .inr (by simp [hc])
        · exact .inl (by simpa using Ne.symm hc)
      · by_cases hc : c = ']'
        · subst hc
          exact .inr fun first => h.head?_ne (head?_ascii first)
        · exact .inl (by simpa using hc)
    · refine other.smooth.seamless.append escaped (.inl fun last => ?_)
      exact other.1 (List.mem_of_getLast? last)

/-! ## Joining -/

theorem joinBrackets_cons (h : c = ']' → text.head? ≠ some '[') :
    joinBrackets (c :: text) = c :: joinBrackets text := by
  rw [joinBrackets]
  rintro rest rfl rfl
  exact h rfl rfl

/-- A text without seams is kept, if it does not end with half of one. -/
theorem joinBrackets_append (h : Seamless text) (last : text.getLast? ≠ some ']') :
    joinBrackets (text ++ rest) = text ++ joinBrackets rest := by
  induction text with
  | nil => rfl
  | cons c text ih =>
    have behind : text.getLast? ≠ some ']' := by
      intro e
      cases text with
      | nil => cases e
      | cons d text => exact last (by rw [List.getLast?_cons_cons, e])
    rw [List.cons_append, joinBrackets_cons, ih h.of_cons behind, List.cons_append]
    rintro rfl
    cases text with
    | nil => exact absurd rfl last
    | cons d text => exact h.head?_ne

/-- Up to the end of its label a statement is kept. -/
theorem joinBrackets_labelled {front label : List Char} (hf : ']' ∉ front) (h : Seamless label) :
    joinBrackets (front ++ (Escape.ascii label ++ '"' :: rest)) =
      front ++ (Escape.ascii label ++ '"' :: joinBrackets rest) := by
  have last : front.getLast? ≠ some ']' := fun e => hf (List.mem_of_getLast? e)
  have marked : Seamless (Escape.ascii label ++ ['"']) :=
    h.ascii.append (seamless_of_not_mem (by decide)) (.inr (by decide))
  have kept : Seamless (front ++ (Escape.ascii label ++ ['"'])) :=
    (seamless_of_not_mem (.inl hf)).append marked (.inl last)
  have joined : joinBrackets (front ++ (Escape.ascii label ++ ['"']) ++ rest) = _ :=
    joinBrackets_append kept (by simp)
  simpa using joined

/-! ## The text of a graph -/

/-- An attribute without brackets. -/
def bare (name value : String) : String :=
  s!"{name}=\"" ++ String.ofList (Escape.ascii value.toList) ++ "\""

/-- The statement with its attributes in one pair of brackets. -/
def Node.joined (n : Node) : String :=
  let shape := if n.isSeed then " " ++ bare "shape" "box" else ""
  s!"    n{n.id}[" ++ bare "label" n.label ++ shape ++ "];\n"

/-- The statement with its attributes in one pair of brackets. -/
def Edge.joined (e : Edge) : String :=
  let attributes :=
    match e.kind with
    | .field => bare "label" e.label ++ " " ++ bare "style" "solid"
    | .epsilon => bare "label" "" ++ " " ++ bare "style" "dashed"
  s!"    n{e.source} -> n{e.target}[" ++ attributes ++ "];\n"

/-- The text of a graph with the attributes of each statement in one pair of brackets. -/
def Graph.joined (g : Graph) : String :=
  "digraph Field_Automata \x7b\n" ++ String.join (g.nodes.map (·.joined)) ++
    String.join (g.edges.map (·.joined)) ++ "\x7d\n"

/-- Joining the brackets of the one text gives the other one, whatever comes behind it. -/
def Joins (s t : String) : Prop :=
  ∀ rest, joinBrackets (s.toList ++ rest) = t.toList ++ joinBrackets rest

theorem Joins.append {s s' t t' : String} (h : Joins s t) (h' : Joins s' t') :
    Joins (s ++ s') (t ++ t') := by
  intro rest
  rw [String.toList_append, String.toList_append, List.append_assoc, h, h', List.append_assoc]

theorem joins_join {α : Type} {f g : α → String} {xs : List α} (h : ∀ x ∈ xs, Joins (f x) (g x)) :
    Joins (String.join (xs.map f)) (String.join (xs.map g)) := by
  induction xs with
  | nil => exact fun _ => rfl
  | cons x xs ih =>
    obtain ⟨first, others⟩ := List.forall_mem_cons.1 h
    rw [List.map_cons, List.map_cons, String.join_cons, String.join_cons]
    exact first.append (ih others)

/-- A text with a label joins if what is behind the label does. -/
theorem joins_of_labelled {s t behind behind' : String} {front label : List Char} (hf : ']' ∉ front)
    (h : Seamless label) (join : Joins behind behind')
    (hs : s.toList = front ++ (Escape.ascii label ++ '"' :: behind.toList))
    (ht : t.toList = front ++ (Escape.ascii label ++ '"' :: behind'.toList)) : Joins s t := by
  intro rest
  rw [hs, ht, List.append_assoc, List.append_assoc, List.cons_append, joinBrackets_labelled hf h,
    join]
  simp

theorem Node.joins {n : Node} (h : Seamless n.label.toList) : Joins n.statement n.joined := by
  have front : ']' ∉ "    n".toList ++ Nat.toDigits 10 n.id ++ "[label=\"".toList := by
    simp [not_mem_digits (show ']'.isDigit = false from rfl)]
  have box : Escape.ascii ['b', 'o', 'x'] = ['b', 'o', 'x'] := by decide
  unfold Node.statement Node.joined bracketed bare
  cases n.isSeed with
  | true =>
    have join : Joins "][shape=\"box\"];\n" " shape=\"box\"];\n" := fun _ => rfl
    exact joins_of_labelled front h join (by simp [toString, box]) (by simp [toString, box])
  | false =>
    have join : Joins "];\n" "];\n" := fun _ => rfl
    exact joins_of_labelled front h join (by simp [toString]) (by simp [toString])

theorem Edge.joins {e : Edge} (h : Seamless e.label.toList) : Joins e.statement e.joined := by
  have front : ']' ∉ "    n".toList ++ Nat.toDigits 10 e.source ++ " -> n".toList ++
      Nat.toDigits 10 e.target ++ "[label=\"".toList := by
    simp [not_mem_digits (show ']'.isDigit = false from rfl)]
  unfold Edge.statement Edge.joined bracketed bare
  cases e.kind with
  | field =>
    have solid : Escape.ascii ['s', 'o', 'l', 'i', 'd'] = ['s', 'o', 'l', 'i', 'd'] := by decide
    have join : Joins "][style=\"solid\"];\n" " style=\"solid\"];\n" := fun _ => rfl
    exact joins_of_labelled front h join (by simp [toString, solid]) (by simp [toString, solid])
  | epsilon =>
    have dashed : Escape.ascii ['d', 'a', 's', 'h', 'e', 'd'] = ['d', 'a', 's', 'h', 'e', 'd'] := by
      decide
    have join : Joins "][style=\"dashed\"];\n" " style=\"dashed\"];\n" := fun _ => rfl
    have blank : Seamless [] := by decide
    exact joins_of_labelled front blank join (by simp [toString, dashed])
      (by simp [toString, dashed])

/-- If no label has a seam, joining brackets changes nothing but the seams between attributes. -/
theorem Graph.text_eq_joined {g : Graph} (nodes : ∀ n ∈ g.nodes, Seamless n.label.toList)
    (edges : ∀ e ∈ g.edges, Seamless e.label.toList) : g.text = g.joined := by
  have opening : Joins "digraph Field_Automata \x7b\n" "digraph Field_Automata \x7b\n" :=
    fun _ => rfl
  have closing : Joins "\x7d\n" "\x7d\n" := fun _ => rfl
  have drawn : Joins g.statements g.joined :=
    ((opening.append (joins_join fun n hn => Node.joins (nodes n hn))).append
      (joins_join fun e he => Edge.joins (edges e he))).append closing
  have joined := drawn []
  rw [List.append_nil, joinBrackets, List.append_nil] at joined
  rw [Graph.text, joined, String.ofList_toList]

end Dot

end PointsTo
