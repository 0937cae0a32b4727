import Mathlib.Data.List.Nodup
import PointsTo.Proofs.Program.Calls

/-!
# The call graph

A program files its call sites once, under the methods that they may enter, and finds the methods that a
site may enter when it is asked for them. Both read one relation (`Program.mem_callers_iff`). A site is
filed when its body is scanned, so the callers of a method are the sites of the scan that may enter it,
in the order of the scan (`Program.callers_eq`): by the position of the method, and then by the position
in its body (`Program.Precedes`). No site is scanned twice, hence none is listed twice. A walk against
the edges asks the same program, so the call graph is the same in both directions.
-/

namespace PointsTo

namespace Program

variable {p : Program} {m : MethodName} {site point : Point} {b : Body} {i : Nat}

/-! ## Program order -/

/-- The point comes first in the text of the program: its method is an earlier one, or it comes first in
the method. -/
def Precedes (p : Program) (point next : Point) : Prop :=
  ∃ i j k l, p.methods.indexOf? point.method = some i ∧ p.methods.indexOf? next.method = some j ∧
    point.index = some k ∧ next.index = some l ∧ (i < j ∨ i = j ∧ k < l)

theorem not_precedes_self (p : Program) (point : Point) : ¬ p.Precedes point point := by
  rintro ⟨i, j, k, l, hi, hj, hk, hl, order⟩
  obtain rfl := Option.some.inj (hi.symm.trans hj)
  obtain rfl := Option.some.inj (hk.symm.trans hl)
  omega

/-- A body stands at the position of its method. -/
theorem indexOf?_of_bodies (h : p.bodies[i]? = some b) : p.methods.indexOf? b.method = some i := by
  rw [bodies, ← OrderedMap.map_snd_toList, List.getElem?_map, Option.map_eq_some_iff] at h
  obtain ⟨⟨k, b⟩, he, rfl⟩ := h
  obtain rfl : b.method = k := p.method_of _ (List.mem_of_getElem? he)
  exact OrderedMap.indexOf?_eq_some_iff.2 ⟨b, he⟩

/-! ## The scan -/

/-- All call sites of the program, in program order. -/
def calls (p : Program) : List (Point × Callee) := p.bodies.flatMap callsOf

theorem pairwise_zipIdx (is : List Instruction) : is.zipIdx.Pairwise fun a b => a.2 < b.2 := by
  have positions : (is.zipIdx.map (·.2)).Pairwise (· < ·) := by
    rw [List.zipIdx_map_snd]
    exact List.pairwise_lt_range'
  exact List.pairwise_map.1 positions

/-- The calls of a body are scanned in the order of their positions. -/
theorem pairwise_callsOf (hb : b ∈ p.bodies) :
    (callsOf b).Pairwise fun c d => p.Precedes c.1 d.1 := by
  obtain ⟨i, hi⟩ := List.mem_iff_getElem?.1 hb
  have position := indexOf?_of_bodies hi
  refine List.pairwise_filterMap.2 ((pairwise_zipIdx _).imp fun {x y} lt c hc d hd => ?_)
  obtain ⟨x, k⟩ := x
  obtain ⟨y, l⟩ := y
  cases x <;> cases y <;> simp at hc hd
  subst hc hd
  exact ⟨i, i, k, l, position, position, rfl, rfl, .inr ⟨rfl, lt⟩⟩

theorem pairwise_calls (p : Program) : p.calls.Pairwise fun c d => p.Precedes c.1 d.1 := by
  refine List.pairwise_flatMap.2 ⟨fun b hb => pairwise_callsOf hb, ?_⟩
  refine List.pairwise_iff_getElem.2 fun i j hi hj lt c hc d hd => ?_
  obtain ⟨k, -, -, -, hc⟩ := mem_callsOf_iff.1 hc
  obtain ⟨l, -, -, -, hd⟩ := mem_callsOf_iff.1 hd
  rw [hc, hd]
  exact ⟨i, j, k, l, indexOf?_of_bodies (List.getElem?_eq_getElem hi),
    indexOf?_of_bodies (List.getElem?_eq_getElem hj), rfl, rfl, .inl lt⟩

/-! ## Filing the scan -/

theorem nodup_resolve (methods : OrderedMap MethodName Body) (callee : Callee) :
    (resolve methods callee).Nodup := by
  unfold resolve
  split
  · split <;> simp
  · exact methods.keys.nodup_toList.filter _

/-- Entries that are all news are filed behind what is there. -/
theorem of_foldl_insert {entries : List (MethodName × Point)} (distinct : entries.Nodup)
    {sites : Multimap MethodName Point} (news : ∀ e ∈ entries, e.2 ∉ sites.of e.1) :
    (entries.foldl (fun sites (method, site) => sites.insert method site) sites).of m =
      sites.of m ++ entries.filterMap fun e => if e.1 = m then some e.2 else none := by
  induction entries generalizing sites with
  | nil => simp
  | cons e entries ih =>
    obtain ⟨method, site⟩ := e
    obtain ⟨fresh, distinct⟩ := List.nodup_cons.1 distinct
    have isNew : site ∉ sites.of method := news _ List.mem_cons_self
    have filed : (sites.insert method site).of m =
        sites.of m ++ if method = m then [site] else [] := by
      rw [Multimap.of, Multimap.group_insert]
      split
      · next e =>
        subst e
        rw [OrderedSet.toList_insert, if_neg (fun h => isNew (OrderedSet.contains_iff.1 h))]
        rfl
      · simp [Multimap.of]
    rw [List.foldl_cons, ih distinct, filed, List.filterMap_cons]
    · split <;> simp
    · intro e he hm
      obtain hm | ⟨hk, hs⟩ := Multimap.mem_of_insert.1 hm
      · exact news e (List.mem_cons_of_mem _ he) hm
      · exact fresh (by rwa [← hk, ← hs])

/-- A site is filed once under a method that it may enter. -/
theorem filterMap_entries {ms : List MethodName} (distinct : ms.Nodup) :
    (ms.map (·, site)).filterMap (fun e => if e.1 = m then some e.2 else none) =
      (if m ∈ ms then some site else none).toList := by
  induction ms with
  | nil => rfl
  | cons m' ms ih =>
    obtain ⟨fresh, distinct⟩ := List.nodup_cons.1 distinct
    rw [List.map_cons, List.filterMap_cons, ih distinct]
    by_cases e : m' = m
    · subst e
      simp [fresh]
    · simp [e, Ne.symm e]

/-- The callers of a method are the call sites of the scan that may enter it, none left out and none
twice: the table refuses no site. -/
theorem callers_eq (p : Program) (m : MethodName) : p.callers m =
    p.calls.filterMap fun c => if m ∈ resolve p.methods c.2 then some c.1 else none := by
  have distinct : (p.calls.flatMap fun c => (resolve p.methods c.2).map (·, c.1)).Nodup := by
    refine List.nodup_flatMap.2 ⟨fun c _ => ?_, p.pairwise_calls.imp fun {c d} order e hc hd => ?_⟩
    · exact (nodup_resolve p.methods c.2).map fun m m' e => (Prod.mk.inj e).1
    · obtain ⟨_, -, rfl⟩ := List.mem_map.1 hc
      obtain ⟨_, -, e⟩ := List.mem_map.1 hd
      rw [(Prod.mk.inj e).2] at order
      exact not_precedes_self p _ order
  rw [callers, p.callSites_eq, collectCallSites]
  refine (of_foldl_insert distinct (by simp)).trans ?_
  rw [Multimap.of_empty, List.nil_append, List.filterMap_flatMap, List.filterMap_eq_flatMap_toList]
  exact List.flatMap_congr fun c _ => filterMap_entries (nodup_resolve p.methods c.2)

theorem pairwise_callers (p : Program) (m : MethodName) : (p.callers m).Pairwise p.Precedes := by
  rw [callers_eq]
  refine List.pairwise_filterMap.2 (p.pairwise_calls.imp fun {c d} order site hc site' hd => ?_)
  obtain rfl := Option.some.inj (Option.ite_none_right_eq_some.1 hc).2
  obtain rfl := Option.some.inj (Option.ite_none_right_eq_some.1 hd).2
  exact order

theorem nodup_callers (p : Program) (m : MethodName) : (p.callers m).Nodup := by
  refine (p.pairwise_callers m).imp fun {site site'} order => ?_
  rintro rfl
  exact p.not_precedes_self site order

theorem nodup_callees (p : Program) (site : Point) : (p.callees site).Nodup := by
  unfold callees
  split
  · exact nodup_resolve _ _
  · exact .nil

end Program

namespace Supergraph

/-- The call graph of a walk is one relation, listed from both of its ends. -/
structure CallsAgree (g : Supergraph) : Prop where
  mem_callees_iff : ∀ site m, m ∈ g.program.callees site ↔ site ∈ g.program.callers m
  nodup_callees : ∀ site, (g.program.callees site).Nodup
  nodup_callers : ∀ m, (g.program.callers m).Nodup
  ordered : ∀ m, (g.program.callers m).Pairwise g.program.Precedes

/-- Whichever way a program is walked: a method is among those that a point may enter exactly if the
point is among its callers, whether or not they exist; neither list names anything twice; and the
callers are in program order. -/
theorem callsAgree (g : Supergraph) : g.CallsAgree ∧ g.reverse.CallsAgree := by
  have agree : g.CallsAgree := {
    mem_callees_iff := fun site m => Program.mem_callers_iff.symm
    nodup_callees := g.program.nodup_callees
    nodup_callers := g.program.nodup_callers
    ordered := g.program.pairwise_callers }
  exact ⟨agree, { agree with }⟩

end Supergraph

end PointsTo
