import PointsTo.Proofs.Source.Reader
import PointsTo.Proofs.Source.Writing

/-!
# The characters of a statement

A statement that was read has no other characters than those that a statement is written with, and
blanks (`readStatement_loose`). Each reader finds the marks of its form and hands on what stands between
them, so the argument goes from the words outward, with one lemma for each reader.
-/

namespace PointsTo

namespace Source

open Text

/-- The text has the characters of statements, and blanks. -/
def Loose (text : List Char) : Prop := ∀ c ∈ text, isStatementChar c = true ∨ isBlank c = true

variable {method : MethodName} {dest : Option Var} {text a b : List Char} {c : Char} {i : Instruction}

theorem loose_append : Loose (a ++ b) ↔ Loose a ∧ Loose b := List.forall_mem_append

theorem loose_cons : Loose (c :: a) ↔ (isStatementChar c = true ∨ isBlank c = true) ∧ Loose a :=
  List.forall_mem_cons

theorem Fits.loose (h : Fits text) : Loose text := fun c hc => .inl (h c hc)

theorem loose_of_trim (h : Loose (trim text)) : Loose text := by
  obtain ⟨before, after, blank, blank', e⟩ := exists_around text
  rw [e, loose_append, loose_append]
  exact ⟨⟨fun c hc => .inr (blank c hc), h⟩, fun c hc => .inr (blank' c hc)⟩

theorem loose_of_isIdent (h : isIdent (trim text) = true) : Loose text :=
  loose_of_trim (stands_word h).fits.loose

/-- What does not occur in statements does not occur in loose texts. -/
theorem Loose.not_mem (h : Loose text) (hc : isStatementChar c = false) (hb : isBlank c = false) :
    c ∉ text := by
  intro hm
  simpa [hc, hb] using h c hm

/-! ## Words -/

theorem readVar_loose {v : Var} (h : readVar method text = .ok v) : Loose text := by
  unfold readVar at h
  dsimp only at h
  split at h
  · next free => exact loose_of_isIdent (isIdent_of_isFreeIdent free)
  · cases h

theorem readLabel_loose {label : String} (h : readLabel text = .ok label) : Loose text := by
  unfold readLabel at h
  dsimp only at h
  split at h
  · next free => exact loose_of_isIdent (isIdent_of_isFreeIdent free)
  · cases h

theorem readType_loose {type : ClassName} (h : readType text = .ok type) : Loose text := by
  unfold readType at h
  dsimp only at h
  split at h
  · next word => exact loose_of_isIdent word
  · cases h

theorem dotted?_loose {left right : List Char} (h : dotted? text = some (left, right)) :
    Loose text := by
  obtain ⟨⟨l, r⟩, hc, h⟩ := Option.bind_eq_some_iff.1 h
  obtain ⟨e, -⟩ := cut_eq_some_iff.1 hc
  dsimp only at h
  split at h
  · next words =>
    obtain ⟨hl, hr⟩ := (Bool.and_eq_true _ _).mp words
    refine loose_of_trim ?_
    rw [e, loose_append, loose_cons]
    exact ⟨loose_of_isIdent hl, .inl (by decide), loose_of_isIdent hr⟩
  · cases h

theorem readVars_loose {texts : List (List Char)} {vs : List Var}
    (h : texts.mapM (readVar method) = .ok vs) : ∀ text ∈ texts, Loose text := by
  induction texts generalizing vs with
  | nil => exact fun _ h => absurd h List.not_mem_nil
  | cons text texts ih =>
    rw [List.mapM_cons] at h
    obtain ⟨v, hv, h⟩ := bind_eq_ok.1 h
    obtain ⟨vs, hvs, -⟩ := bind_eq_ok.1 h
    exact List.forall_mem_cons.2 ⟨readVar_loose hv, ih hvs⟩

/-! ## Calls -/

theorem after?_loose {start rest : List Char} (h : after? start text = some rest)
    (hs : Fits start) (hr : Loose rest) : Loose text := by
  rw [← List.isPrefixOf?_eq_some_iff_append_eq.1 h]
  exact loose_append.2 ⟨hs.loose, hr⟩

/-- The arguments between the brackets. -/
theorem loose_of_pieces {args : List Char} (h : ∀ p ∈ (pieces ',' args).map trim, Loose p) :
    Loose args := by
  intro c hc
  rw [← join_pieces ',' args] at hc
  obtain rfl | ⟨p, hp, hc⟩ := mem_join hc
  · exact .inl (by decide)
  · exact loose_of_trim (h _ (List.mem_map_of_mem hp)) c hc

theorem readInvocation_loose {name : List Char} {args : List (List Char)}
    (h : readInvocation text = .ok (name, args)) (hn : Loose name) (ha : ∀ a ∈ args, Loose a) :
    Loose text := by
  unfold readInvocation at h
  dsimp only at h
  split at h
  · cases h
  next front rest hc =>
  split at h
  · cases h
  next inner hi =>
  obtain ⟨rfl, rfl⟩ := Prod.mk.inj (Except.ok.inj h)
  obtain ⟨e, -⟩ := cut_eq_some_iff.1 hc
  have closed := List.isSuffixOf?_eq_some_iff_append_eq.1 hi
  have arguments : Loose inner := by
    split at ha
    · next none =>
      refine loose_of_trim ?_
      rw [List.isEmpty_iff.1 none]
      exact fun _ h => absurd h List.not_mem_nil
    · exact loose_of_pieces ha
  refine loose_of_trim ?_
  rw [e, ← closed, loose_append, loose_cons, loose_append]
  exact ⟨loose_of_trim hn, .inl (by decide), arguments, Fits.loose (by decide)⟩

theorem readVirtualCall_loose (h : readVirtualCall method dest text = .ok i) : Loose text := by
  obtain ⟨⟨target, args⟩, hc, h⟩ := bind_eq_ok.1 h
  dsimp only at h
  split at h
  · cases h
  · next receiver name hd =>
    obtain ⟨v, -, h⟩ := bind_eq_ok.1 h
    obtain ⟨vs, hv, -⟩ := bind_eq_ok.1 h
    exact readInvocation_loose hc (dotted?_loose hd) (readVars_loose hv)

theorem readStaticCall_loose (h : readStaticCall method dest text = .ok i) : Loose text := by
  obtain ⟨⟨name, args⟩, hc, h⟩ := bind_eq_ok.1 h
  dsimp only at h
  split at h
  · next hm =>
    obtain ⟨vs, hv, -⟩ := bind_eq_ok.1 h
    exact readInvocation_loose hc (stands_methodName hm).fits.loose (readVars_loose hv)
  · cases h

theorem readCall?_loose (h : readCall? method dest text = some (.ok i)) : Loose text := by
  unfold readCall? at h
  split at h
  · next hs => exact after?_loose hs (by decide) (readVirtualCall_loose (Option.some.inj h))
  · obtain ⟨rest, hs, h⟩ := Option.map_eq_some_iff.1 h
    exact after?_loose hs (by decide) (readStaticCall_loose h)

/-! ## Statements -/

theorem readRight_loose {dest : Var} (h : readRight method dest text = .ok i) : Loose text := by
  unfold readRight at h
  split at h
  · next hs =>
    obtain ⟨type, ht, -⟩ := bind_eq_ok.1 h
    exact after?_loose hs (by decide) (readType_loose ht)
  split at h
  · next hs => exact hs ▸ Fits.loose (by decide)
  split at h
  · next call hc => exact readCall?_loose (h ▸ hc)
  split at h
  · next hd => exact dotted?_loose hd
  · obtain ⟨value, hv, -⟩ := bind_eq_ok.1 h
    exact readVar_loose hv

theorem readAssignment_loose {left right : List Char} (h : readAssignment method left right = .ok i) :
    Loose left ∧ Loose right := by
  unfold readAssignment at h
  split at h
  · next hd =>
    obtain ⟨base, -, h⟩ := bind_eq_ok.1 h
    obtain ⟨value, hv, -⟩ := bind_eq_ok.1 h
    exact ⟨dotted?_loose hd, readVar_loose hv⟩
  · obtain ⟨dest, hd, h⟩ := bind_eq_ok.1 h
    exact ⟨readVar_loose hd, readRight_loose h⟩

theorem branchTarget?_loose {label : List Char} (h : branchTarget? text = some label)
    (hl : Loose label) : Loose text := by
  obtain ⟨rest, hs, h⟩ := Option.bind_eq_some_iff.1 h
  exact loose_of_trim (after?_loose hs (by decide) (loose_of_trim (after?_loose h (by decide) hl)))

/-- A statement that was read has only characters of statements, and blanks. -/
theorem readStatement_loose {jump : Jump} (h : readStatement method text = .ok (i, jump)) :
    Loose text := by
  unfold readStatement at h
  split at h
  · next hs => exact hs ▸ Fits.loose (by decide)
  split at h
  · next hs => exact hs ▸ Fits.loose (by decide)
  split at h
  · next hs =>
    obtain ⟨value, hv, -⟩ := bind_eq_ok.1 h
    exact after?_loose hs (by decide) (readVar_loose hv)
  split at h
  · next hs =>
    obtain ⟨label, hl, -⟩ := bind_eq_ok.1 h
    exact after?_loose hs (by decide) (readLabel_loose hl)
  split at h
  · next hs =>
    split at h
    · next ht =>
      obtain ⟨label, hl, -⟩ := bind_eq_ok.1 h
      exact after?_loose hs (by decide) (branchTarget?_loose ht (readLabel_loose hl))
    · cases h
  split at h
  · next call hc =>
    obtain ⟨_, hcall, -⟩ := bind_eq_ok.1 h
    exact readCall?_loose (hcall ▸ hc)
  split at h
  · next left right hc =>
    obtain ⟨_, ha, -⟩ := bind_eq_ok.1 h
    obtain ⟨hl, hr⟩ := readAssignment_loose ha
    rw [(cut_eq_some_iff.1 hc).1, loose_append, loose_cons]
    exact ⟨loose_of_trim hl, .inl (by decide), loose_of_trim hr⟩
  · cases h

end Source

end PointsTo
