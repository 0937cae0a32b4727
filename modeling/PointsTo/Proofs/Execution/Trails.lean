import PointsTo.Proofs.Analysis.World
import PointsTo.Proofs.Execution.Run

/-!
# The trail of a run

What can be followed of a run that loads and stores. From where a value was made, a search goes along
the run: a value that is stored is then found below the field of the base, and below the same field of
the other names of the object. From a variable, a search goes against the run: what was loaded is
looked for where the field was written, from a name of the object that has been kept since then.

Whether another name of an object counts at an access is left open (`conveyed`). The base and the value
of the access never do (`FieldAccess.Connects`). So a trail may lose a value that is read from a field:
the object is read through itself, or no variable through which the field was written is left at the
load. A value that is never read from a field is not lost (`Trail.finds_act`).
-/

namespace PointsTo

/-- What can be followed of a run. -/
structure Trail where
  /-- From where it was made, the value is found in the variable, below the fields. -/
  leads : Var → List Field → Value → Prop
  /-- From the variable, what it holds is found where it was made. -/
  traced : Var → Prop
  /-- The field of the object was last written through the variable, or through one that it is a copy
  of, and what was written can be traced. -/
  names : Value → Field → Var → Prop

namespace Trail

variable (τ : Trail)

def empty : Trail := ⟨fun _ _ _ => False, fun _ => False, fun _ _ _ => False⟩

/-- A variable gets a new value. -/
def make (dest : Var) (x : Value) : Trail where
  leads y w z := if y = dest then w = [] ∧ z = x else τ.leads y w z
  traced y := y = dest ∨ τ.traced y
  names o g y := y ≠ dest ∧ τ.names o g y

/-- A variable becomes a copy of another one. -/
def copy (dest value : Var) : Trail where
  leads y := τ.leads (if y = dest then value else y)
  traced y := τ.traced (if y = dest then value else y)
  names o g y := τ.names o g (if y = dest then value else y)

/-- A field of the object is written. -/
def store (conveyed : Fact → List Field → Prop) (access : FieldAccess) (next : Point)
    (object : Value) : Trail where
  leads y w x := τ.leads y w x ∨ ∃ above below, w = above ++ access.field :: below ∧
    τ.leads access.value below x ∧ (y = access.base ∧ above = [] ∨
      access.Connects y ∧ τ.leads y above object ∧ τ.traced access.base ∧
        τ.leads access.base [] object ∧ conveyed ⟨next, y⟩ above)
  traced := τ.traced
  names o g y := if o = object ∧ g = access.field then
      y = access.base ∧ τ.traced access.value ∧ τ.leads access.base [] object
    else τ.names o g y

/-- A field of the object is read. -/
def load (conveyed : Fact → List Field → Prop) (access : FieldAccess) (object : Value) : Trail where
  leads y w x := if y = access.value then τ.leads access.base (access.field :: w) x else τ.leads y w x
  traced y := if y = access.value then
      τ.names object access.field access.base ∨ τ.traced access.base ∧ τ.leads access.base [] object ∧
        ∃ z, access.Connects z ∧ τ.names object access.field z ∧ conveyed ⟨access.point, z⟩ []
    else τ.traced y
  names o g y := y ≠ access.value ∧ τ.names o g y

/-- What an instruction makes of the trail, where control goes on to the next point. -/
def act (conveyed : FieldAccess → Fact → List Field → Prop) (point next : Point) (l : Locals)
    (h : Heap) : Instruction → Trail
  | .new dest _ => τ.make dest (h.fresh point)
  | .null dest => τ.make dest (.null point)
  | .assign dest value => τ.copy dest value
  | .store base field value =>
    let access := ⟨.write, point, base, field, value⟩
    (l.object? base).elim τ (τ.store (conveyed access) access next)
  | .load dest base field =>
    let access := ⟨.read, point, base, field, dest⟩
    (l.object? base).elim τ (τ.load (conveyed access) access)
  | .call .. | .ret _ | .nop => τ

/-- The value is found for the variable. -/
def Finds (v : Var) (x : Value) : Prop := τ.traced v ∧ τ.leads v [] x

variable {τ} {conveyed : FieldAccess → Fact → List Field → Prop} {point next : Point} {l l' : Locals}
  {h h' : Heap} {i : Instruction} {x : Value}

/-- An instruction loses no value that it does not read from a field. -/
theorem finds_act (ha : i.act? point l h = some (l', h')) (unread : i.read? l h ≠ some x)
    (finds : ∀ v, l v = some x → τ.Finds v x) (v : Var) (held : l' v = some x) :
    (τ.act conveyed point next l h i).Finds v x := by
  cases i with
  | new dest type =>
    obtain ⟨rfl, -⟩ := Prod.mk.inj (Option.some.inj ha)
    by_cases e : v = dest <;> simp_all [Finds, act, make]
  | null dest =>
    obtain ⟨rfl, -⟩ := Prod.mk.inj (Option.some.inj ha)
    by_cases e : v = dest <;> simp_all [Finds, act, make]
  | assign dest value =>
    obtain ⟨rfl, -⟩ := Prod.mk.inj (Option.some.inj ha)
    by_cases e : v = dest <;> simp_all [Finds, act, copy]
  | store base field value =>
    obtain ⟨object, ho, ha⟩ := Option.map_eq_some_iff.1 ha
    obtain ⟨rfl, -⟩ := Prod.mk.inj ha
    simp only [Finds, act, ho, Option.elim_some, store]
    exact (finds v held).imp_right .inl
  | load dest base field =>
    obtain ⟨object, ho, ha⟩ := Option.bind_eq_some_iff.1 ha
    obtain ⟨y, hy, ha⟩ := Option.bind_eq_some_iff.1 ha
    obtain ⟨rfl, -⟩ := Prod.mk.inj (Option.some.inj ha)
    have kept : v ≠ dest := by
      rintro rfl
      exact unread (by simpa [Instruction.read?, ho, hy] using held)
    simp only [Finds, act, ho, Option.elim_some, load, if_neg kept]
    exact finds v (by simpa [kept] using held)
  | nop =>
    obtain ⟨rfl, -⟩ := Prod.mk.inj (Option.some.inj ha)
    exact finds v held
  | call | ret => cases ha

end Trail

namespace Program

/-- Some run inside a method arrives at the state and leaves the trail. -/
inductive Trails (p : Program) (conveyed : FieldAccess → Fact → List Field → Prop) :
    State → Trail → Prop
  | initial {m entry} : entry ∈ p.entries m → Trails p conveyed (.initial entry) .empty
  | act {point next l l' h h' i τ} : Trails p conveyed ⟨⟨point, l⟩, [], h⟩ τ →
      p.instruction? point = some i → i.act? point l h = some (l', h') →
        next ∈ p.successors point →
          Trails p conveyed ⟨⟨next, l'⟩, [], h'⟩ (τ.act conveyed point next l h i)

variable {p : Program} {conveyed : FieldAccess → Fact → List Field → Prop} {s : State} {τ : Trail}

theorem Trails.runs (h : p.Trails conveyed s τ) : p.Runs s := by
  induction h with
  | initial he => exact .initial he
  | act _ hi ha hn ih => exact ih.tail trivial (.act hi ha hn)

/-- Without calls, every run leaves a trail, which loses no value that is never read from a field. -/
theorem RunsWhile.exists_trail {P : State → Prop} (h : p.RunsWhile P s) (callFree : p.CallFree) :
    ∃ τ, p.Trails conveyed s τ ∧ ∀ x, (∀ s, P s → s.read? p ≠ some x) →
      ∀ v, s.top.locals v = some x → τ.Finds v x := by
  suffices s.callers = [] ∧ ∃ τ, p.Trails conveyed s τ ∧ ∀ x, (∀ s, P s → s.read? p ≠ some x) →
      ∀ v, s.top.locals v = some x → τ.Finds v x from this.2
  induction h with
  | initial he => exact ⟨rfl, _, .initial he, fun _ _ _ => nofun⟩
  | tail _ hP step ih =>
    obtain ⟨alone, τ, trails, finds⟩ := ih
    cases step with
    | act hi ha hn =>
      obtain rfl : _ = [] := alone
      refine ⟨rfl, _, trails.act hi ha hn, fun x unread => ?_⟩
      exact Trail.finds_act ha (by simpa [State.read?, hi] using unread _ hP) (finds x unread)
    | call hi => cases callFree.instruction hi
    | ret => cases alone

end Program

end PointsTo
