import Mathlib.Data.List.Basic
import Mathlib.Data.List.TakeWhile
import PointsTo.Source.Reader

/-!
# Words and marks in a line

A line of a program is made of words, which are identifiers, and of marks between them. The reader
looks for marks first, so what it finds depends on where a mark may occur: not inside a word
(`not_mem_of_isIdent`), and not before the first mark of its kind (`cut_append`, `pieces_append`). What
a text begins with is decided by its first word (`firstWord`): a text that begins with a free identifier
begins with none of the keywords (`after?_keyword`). Blanks around a text are taken off before it is read
(`trim_blanks_append`, `trim_append_blanks`).
-/

namespace PointsTo

namespace Text

variable {separator c : Char} {cs before after front back : List Char}

/-! ## Blanks -/

/-- The text neither starts nor ends with a blank. -/
structure Tight (cs : List Char) : Prop where
  first : ∀ c, cs.head? = some c → isBlank c = false
  last : ∀ c, cs.getLast? = some c → isBlank c = false

theorem Tight.trim_eq (h : Tight cs) : trim cs = cs := trim_eq_self h.first h.last

theorem tight_of_forall (h : ∀ c ∈ cs, isBlank c = false) : Tight cs :=
  ⟨fun c hc => h c (List.mem_of_mem_head? hc), fun c hc => h c (List.mem_of_getLast? hc)⟩

/-- Whatever stands between two texts without blanks. -/
theorem Tight.between (hf : front ≠ []) (tf : Tight front) (hb : back ≠ []) (tb : Tight back) :
    Tight (front ++ cs ++ back) := by
  constructor
  · intro c hc
    rw [List.append_assoc, List.head?_append_of_ne_nil _ hf] at hc
    exact tf.first c hc
  · intro c hc
    rw [List.getLast?_append_of_ne_nil _ hb] at hc
    exact tb.last c hc

/-! ## Blanks around a text -/

theorem trim_blanks_append (h : ∀ c ∈ before, isBlank c = true) : trim (before ++ cs) = trim cs := by
  rw [trim, trim, trimStart, List.dropWhile_append_of_pos h]
  rfl

theorem trimStart_append (h : trimStart front ≠ []) :
    trimStart (front ++ back) = trimStart front ++ back := by
  rw [trimStart, List.dropWhile_append]
  exact if_neg fun none => h (List.isEmpty_iff.1 none)

theorem trim_append_blanks (h : ∀ c ∈ after, isBlank c = true) : trim (cs ++ after) = trim cs := by
  by_cases none : trimStart cs = []
  · have all : ∀ c ∈ cs ++ after, isBlank c = true :=
      List.forall_mem_append.2 ⟨List.dropWhile_eq_nil_iff.1 none, h⟩
    rw [trim, trim, none, trimStart, List.dropWhile_eq_nil_iff.2 all]
  · rw [trim, trimStart_append none, trimEnd, List.reverse_append, List.dropWhile_append_of_pos]
    · rfl
    · exact fun c hc => h c (List.mem_reverse.1 hc)

theorem trim_blank_cons (hc : isBlank c = true) : trim (c :: cs) = trim cs :=
  trim_blanks_append (List.forall_mem_singleton.2 hc)

theorem trim_append_blank (h : Tight cs) (hc : isBlank c = true) : trim (cs ++ [c]) = cs :=
  (trim_append_blanks (List.forall_mem_singleton.2 hc)).trans h.trim_eq

theorem exists_trimStart (cs : List Char) :
    ∃ before, (∀ c ∈ before, isBlank c = true) ∧ cs = before ++ trimStart cs :=
  ⟨cs.takeWhile isBlank, fun _ => List.mem_takeWhile_imp, List.takeWhile_append_dropWhile.symm⟩

theorem exists_trimEnd (cs : List Char) :
    ∃ after, (∀ c ∈ after, isBlank c = true) ∧ cs = trimEnd cs ++ after := by
  refine ⟨(cs.reverse.takeWhile isBlank).reverse,
    fun c hc => List.mem_takeWhile_imp (List.mem_reverse.1 hc), ?_⟩
  rw [trimEnd, ← List.reverse_append, List.takeWhile_append_dropWhile, List.reverse_reverse]

/-- Only blanks are taken off. -/
theorem exists_around (cs : List Char) : ∃ before after, (∀ c ∈ before, isBlank c = true) ∧
    (∀ c ∈ after, isBlank c = true) ∧ cs = before ++ trim cs ++ after := by
  obtain ⟨before, blank, e⟩ := exists_trimStart cs
  obtain ⟨after, blank', e'⟩ := exists_trimEnd (trimStart cs)
  exact ⟨before, after, blank, blank', by rw [List.append_assoc, trim, ← e', ← e]⟩

theorem trim_of_blank (h : ∀ c ∈ cs, isBlank c = true) : trim cs = [] := by
  rw [← List.append_nil cs, trim_blanks_append h]
  rfl

theorem trim_trimStart (cs : List Char) : trim (trimStart cs) = trim cs := by
  obtain ⟨before, blank, e⟩ := exists_trimStart cs
  exact (trim_blanks_append blank).symm.trans (congrArg trim e.symm)

theorem trim_trimEnd (cs : List Char) : trim (trimEnd cs) = trim cs := by
  obtain ⟨after, blank, e⟩ := exists_trimEnd cs
  exact (trim_append_blanks blank).symm.trans (congrArg trim e.symm)

theorem trim_trim (cs : List Char) : trim (trim cs) = trim cs :=
  (trim_trimEnd (trimStart cs)).trans (trim_trimStart cs)

theorem mem_of_mem_trim (h : c ∈ trim cs) : c ∈ cs := by
  obtain ⟨before, after, -, -, e⟩ := exists_around cs
  rw [e]
  simp [h]

/-- Blanks at the end are taken off behind whatever is no blank. -/
theorem trimEnd_append_cons (hc : isBlank c = false) :
    trimEnd (front ++ c :: back) = front ++ c :: trimEnd back := by
  have reversed : (front ++ c :: back).reverse.dropWhile isBlank =
      back.reverse.dropWhile isBlank ++ c :: front.reverse := by
    rw [List.reverse_append, List.reverse_cons, List.append_assoc, List.dropWhile_append]
    split
    · next none => simp [List.isEmpty_iff.1 none, hc]
    · rfl
  rw [trimEnd, reversed]
  simp [trimEnd]

/-! ## Cutting -/

theorem cut_append (h : separator ∉ before) :
    cut separator (before ++ separator :: after) = some (before, after) :=
  cut_eq_some_iff.2 ⟨rfl, h⟩

theorem cut_eq_none (h : separator ∉ cs) : cut separator cs = none := by
  cases e : cut separator cs with
  | none => rfl
  | some parts =>
    obtain ⟨rfl, -⟩ := cut_eq_some_iff.1 e
    exact absurd (by simp) h

theorem pieces_of_not_mem (h : separator ∉ cs) : pieces separator cs = [cs] := by
  induction cs with
  | nil => rfl
  | cons c r ih =>
    rw [List.mem_cons, not_or] at h
    rw [pieces, if_neg (Ne.symm h.1), ih h.2]

theorem pieces_append_separator (front back : List Char) :
    pieces separator (front ++ separator :: back) =
      pieces separator front ++ pieces separator back := by
  induction front with
  | nil => simp [pieces]
  | cons c r ih =>
    rw [List.cons_append, pieces, pieces, ih]
    split
    · rfl
    · cases e : pieces separator r with
      | nil => exact absurd e (pieces_ne_nil separator r)
      | cons p ps => rfl

theorem pieces_append (h : separator ∉ before) :
    pieces separator (before ++ separator :: after) = before :: pieces separator after := by
  rw [pieces_append_separator, pieces_of_not_mem h]
  rfl

theorem mem_join {ps : List (List Char)} (h : c ∈ join separator ps) :
    c = separator ∨ ∃ p ∈ ps, c ∈ p := by
  induction ps with
  | nil => exact absurd h List.not_mem_nil
  | cons p ps ih =>
    cases ps with
    | nil => exact .inr ⟨p, List.mem_cons_self, h⟩
    | cons q ps =>
      obtain h | h := List.mem_append.1 h
      · exact .inr ⟨p, List.mem_cons_self, h⟩
      · obtain rfl | h := List.mem_cons.1 h
        · exact .inl rfl
        · exact (ih h).imp_right fun ⟨r, hr, hc⟩ => ⟨r, List.mem_cons_of_mem p hr, hc⟩

theorem lines_append_feed (front back : List Char) :
    lines (front ++ '\n' :: back) = pieces '\n' front ++ lines back := by
  have hne := pieces_ne_nil '\n' back
  unfold lines
  dsimp only
  rw [pieces_append_separator, List.getLast?_append_of_ne_nil _ hne]
  split
  · rw [List.dropLast_append_of_ne_nil hne]
  · rfl

/-- Lines that hold no line feed are read off the text in which each ends with one. -/
theorem lines_flatMap {ls : List (List Char)} (h : ∀ l ∈ ls, '\n' ∉ l) :
    lines (ls.flatMap (· ++ ['\n'])) = ls := by
  induction ls with
  | nil => rfl
  | cons l ls ih =>
    obtain ⟨hl, hls⟩ := List.forall_mem_cons.1 h
    rw [List.flatMap_cons, List.append_assoc, List.singleton_append, lines_append_feed,
      pieces_of_not_mem hl, ih hls]
    rfl

end Text

namespace Source

open Text

variable {method : MethodName} {w text rest : List Char} {m : Char}

/-! ## Words -/

theorem isBlank_of_isIdentRest {c : Char} (h : isIdentRest c = true) : isBlank c = false := by
  have range : (65 ≤ c.toNat ∧ c.toNat ≤ 90 ∨ 97 ≤ c.toNat ∧ c.toNat ≤ 122) ∨
      (48 ≤ c.toNat ∧ c.toNat ≤ 57) ∨ c = '_' := by
    unfold isIdentRest Char.isAlphanum Char.isAlpha Char.isUpper Char.isLower Char.isDigit at h
    simpa [or_assoc, UInt32.le_iff_toNat_le] using h
  have code : c.toNat < 128 ∧ 32 < c.toNat := by
    rcases range with (h | h) | h | rfl
    · omega
    · omega
    · omega
    · decide
  simp only [isBlank, inRanges, blankRanges, List.any_cons, List.any_nil, Bool.or_false,
    Bool.or_eq_false_iff, Bool.and_eq_false_iff, decide_eq_false_iff_not]
  omega

theorem ne_nil_of_isIdent (h : isIdent w = true) : w ≠ [] := by
  rintro rfl
  cases h

theorem isIdentRest_of_mem (h : isIdent w = true) : ∀ c ∈ w, isIdentRest c = true := by
  cases w with
  | nil => exact fun c hc => absurd hc List.not_mem_nil
  | cons d r =>
    obtain ⟨start, rest⟩ : isIdentStart d = true ∧ r.all isIdentRest = true := by
      simpa [isIdent] using h
    have first : isIdentRest d = true := by
      simp only [isIdentStart, isIdentRest, Char.isAlphanum, Bool.or_eq_true] at start ⊢
      exact start.imp_left .inl
    exact List.forall_mem_cons.2 ⟨first, List.all_eq_true.1 rest⟩

theorem not_mem_of_isIdent (h : isIdent w = true) (hm : isIdentRest m = false) : m ∉ w := by
  intro hw
  rw [isIdentRest_of_mem h m hw] at hm
  cases hm

theorem isIdent_of_isFreeIdent (h : isFreeIdent w = true) : isIdent w = true :=
  ((Bool.and_eq_true _ _).mp h).1

theorem not_mem_keywords (h : isFreeIdent w = true) : w ∉ keywords := by
  simpa using ((Bool.and_eq_true _ _).mp h).2

/-! ## The word a text begins with -/

def firstWord (text : List Char) : List Char := text.takeWhile isIdentRest

theorem firstWord_of_isIdent (h : isIdent w = true) : firstWord w = w :=
  List.takeWhile_eq_self_iff.2 (isIdentRest_of_mem h)

theorem firstWord_of_keyword {k : List Char} (hk : k ∈ keywords) : firstWord k = k := by
  have word : ∀ k ∈ keywords, firstWord k = k := by decide
  exact word k hk

/-- A mark ends the first word, if it has not ended before. -/
theorem firstWord_append (hm : isIdentRest m = false) :
    firstWord (w ++ m :: rest) = firstWord w := by
  induction w with
  | nil => simp [firstWord, hm]
  | cons c r ih =>
    rw [firstWord, firstWord, List.cons_append, List.takeWhile_cons, List.takeWhile_cons]
    split
    · exact congrArg (c :: ·) ih
    · rfl

/-- No text begins with a keyword and a blank if its first word is none. -/
theorem after?_keyword {k : List Char} (hk : k ∈ keywords) (h : firstWord text ∉ keywords) :
    after? (k ++ [' ']) text = none := by
  cases e : after? (k ++ [' ']) text with
  | none => rfl
  | some rest =>
    have e := List.isPrefixOf?_eq_some_iff_append_eq.1 e
    rw [List.append_assoc, List.singleton_append] at e
    rw [← e, firstWord_append (by decide), firstWord_of_keyword hk] at h
    exact absurd hk h

theorem ne_keyword {k : List Char} (hk : k ∈ keywords) (h : firstWord text ∉ keywords) :
    text ≠ k := by
  rintro rfl
  exact h ((firstWord_of_keyword hk).symm ▸ hk)

end Source

end PointsTo
