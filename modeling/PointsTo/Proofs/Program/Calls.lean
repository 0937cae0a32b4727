import PointsTo.Proofs.Program.Edges

/-!
# Call sites and callees

The call sites that a program files under a method are those whose calls may enter it
(`Program.mem_callers_iff`). A static call that resolves enters the one method it names.
-/

namespace PointsTo

namespace Program

variable {p : Program} {site point : Point} {m : MethodName}

theorem mem_bodies_iff {b : Body} : b ∈ p.bodies ↔ p.body? b.method = some b := by
  constructor
  · intro h
    rw [bodies, ← OrderedMap.map_snd_toList] at h
    obtain ⟨⟨k, b⟩, he, rfl⟩ := List.mem_map.1 h
    obtain rfl : b.method = k := p.method_of _ he
    exact OrderedMap.get?_eq_some_iff.2 he
  · exact fun h => (body?_eq_some h).1

theorem mem_callsOf_iff {b : Body} {callee : Callee} : (site, callee) ∈ callsOf b ↔
    ∃ i dest args, b.instruction? i = some (.call dest callee args) ∧
      site = .ofIndex b.method i := by
  simp only [callsOf, List.mem_filterMap, Prod.exists, Body.instruction?]
  constructor
  · rintro ⟨instruction, i, hi, h⟩
    split at h
    · next dest callee' args =>
      obtain ⟨rfl, rfl⟩ := Prod.mk.inj (Option.some.inj h)
      rw [List.mk_mem_zipIdx_iff_getElem?, Array.getElem?_toList] at hi
      exact ⟨i, dest, args, hi, rfl⟩
    · cases h
  · rintro ⟨i, dest, args, hi, rfl⟩
    refine ⟨.call dest callee args, i, ?_, rfl⟩
    rw [List.mk_mem_zipIdx_iff_getElem?, Array.getElem?_toList]
    exact hi

theorem mem_of_foldl_insert {entries : List (MethodName × Point)} {sites : Multimap MethodName Point} :
    site ∈ (entries.foldl (fun sites (method, site) => sites.insert method site) sites).of m ↔
      site ∈ sites.of m ∨ (m, site) ∈ entries := by
  induction entries generalizing sites with
  | nil => simp
  | cons e entries ih =>
    obtain ⟨m', site'⟩ := e
    rw [List.foldl_cons, ih, Multimap.mem_of_insert, List.mem_cons, Prod.mk.injEq, or_assoc]

/-- A call site is filed under the methods that its call may enter. -/
theorem mem_callers_iff : site ∈ p.callers m ↔ m ∈ p.callees site := by
  simp only [callers, p.callSites_eq, collectCallSites, mem_of_foldl_insert, Multimap.of_empty,
    List.not_mem_nil, false_or, List.mem_flatMap, List.mem_map, Prod.mk.injEq, Prod.exists, callees]
  constructor
  · rintro ⟨site', callee, ⟨b, hb, hs⟩, m', hm, rfl, rfl⟩
    obtain ⟨i, dest, args, hi, rfl⟩ := mem_callsOf_iff.1 hs
    have hb := mem_bodies_iff.1 hb
    have hk : i < b.size := (Array.getElem?_eq_some_iff.1 hi).1
    have e : p.instruction? (.ofIndex b.method i) = some (.call dest callee args) := by
      rw [instruction?, locate?_ofIndex hb hk]
      exact hi
    rw [e]
    exact hm
  · intro h
    split at h
    · next dest callee args hi =>
      obtain ⟨b, i, hl, hi⟩ := locate?_of_instruction? hi
      obtain ⟨hb, -, e⟩ := locate?_eq_some hl
      obtain ⟨hb, hm⟩ := body?_eq_some hb
      exact ⟨site, callee, ⟨b, hb, mem_callsOf_iff.2 ⟨i, dest, args, hi, by rw [hm]; exact e⟩⟩, m, h, rfl,
        rfl⟩
    · simp at h

/-- Control leaves a method at its `return` instructions. -/
theorem mem_exits_iff : point ∈ p.exits m ↔
    point.method = m ∧ ∃ value, p.instruction? point = some (.ret value) := by
  unfold exits
  constructor
  · intro h
    split at h
    · next b hb =>
      obtain ⟨k, hk, rfl⟩ := List.mem_map.1 h
      obtain ⟨hk, hr⟩ := List.mem_filter.1 hk
      have hk := List.mem_range.1 hk
      refine ⟨rfl, ?_⟩
      rw [instruction?, locate?_ofIndex hb hk]
      obtain ⟨i, hi, hr⟩ := (Option.any_eq_true _ _).mp hr
      cases i with
      | ret value => exact ⟨value, hi⟩
      | _ => cases hr
    · simp at h
  · rintro ⟨rfl, value, h⟩
    obtain ⟨b, k, hl, hi⟩ := locate?_of_instruction? h
    obtain ⟨hb, hk, e⟩ := locate?_eq_some hl
    rw [hb]
    refine List.mem_map.2 ⟨k, List.mem_filter.2 ⟨List.mem_range.2 hk, ?_⟩, e.symm⟩
    rw [hi]
    rfl

end Program

end PointsTo
