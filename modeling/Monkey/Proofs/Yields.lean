import Monkey.Proofs.Likeness

/-!
# Evaluations that go the same in every world

Of many trees one can tell how their evaluation ends without looking at the world it begins in: it
yields a value of a certain kind (`Traced.Yields`), or it stops for a certain reason
(`Traced.Stops`). Where an evaluation is made of others, so is what can be told of it. Without a
limit, counting a node yields nothing of interest, so a node does what its rule does (`Yields.node`,
`Stops.node`), and a run has the result of its tree (`value_of_yields`, `error_of_stops`).
-/

namespace Monkey

namespace Traced

variable {α β : Type} {P : α → Prop} {Q : β → Prop}

/-- In every world an evaluation yields a value of which something holds. -/
def Yields (x : Traced α) (P : α → Prop) : Prop :=
  ∀ w, ∃ a, (x.run w).1 = .ok a ∧ P a

/-- In every world an evaluation stops for the same reason. -/
def Stops (x : Traced α) (s : Stop) : Prop :=
  ∀ w, (x.run w).1 = .error s

/-- What comes after a value. -/
theorem run_bind_of_ok {x : Traced α} {k : α → Traced β} {w : World} {a : α}
    (h : (x.run w).1 = .ok a) : ((x >>= k).run w).1 = ((k a).run (x.run w).2).1 := by
  rcases hx : x.run w with ⟨r, u⟩
  rw [hx] at h
  obtain rfl : r = .ok a := h
  rw [run_bind, hx]
  rfl

namespace Yields

theorem pure {a : α} (h : P a) : Yields (pure a) P :=
  fun _ => ⟨a, rfl, h⟩

theorem bind {x : Traced α} {k : α → Traced β} (hx : x.Yields P) (hk : ∀ a, P a → (k a).Yields Q) :
    (x >>= k).Yields Q := by
  intro w
  obtain ⟨a, ha, hP⟩ := hx w
  rw [run_bind_of_ok ha]
  exact hk a hP _

/-- What follows a value may stop. -/
theorem bind_stops {x : Traced α} {k : α → Traced β} {s : Stop} (hx : x.Yields P)
    (hk : ∀ a, P a → (k a).Stops s) : (x >>= k).Stops s := by
  intro w
  obtain ⟨a, ha, hP⟩ := hx w
  rw [run_bind_of_ok ha]
  exact hk a hP _

theorem fresh : fresh.Yields fun _ => True :=
  fun w => ⟨w.nextRef, rfl, trivial⟩

theorem step {limits : Limits} (h : limits.steps ≤ 0) : (step limits).Yields fun _ => True := by
  intro w
  rw [run_step h]
  exact ⟨(), rfl, trivial⟩

theorem noted {x : Traced Value} {P : Value → Prop} (hx : x.Yields P) : (noted x).Yields P := by
  intro w
  rw [run_noted]
  exact hx w

theorem used {x : Traced Value} {P : Value → Prop} (hx : x.Yields P) {e : Expr} :
    (used e x).Yields P := by
  intro w
  rw [run_used]
  exact hx w

/-- A node yields what its rule yields. -/
theorem node {limits : Limits} (h : limits.steps ≤ 0) {x : Traced Value} {P : Value → Prop}
    (hx : x.Yields P) : (Traced.noted (Traced.step limits >>= fun _ => x)).Yields P :=
  ((step h).bind fun _ _ => hx).noted

end Yields

namespace Stops

/-- Nothing follows where an evaluation stops. -/
theorem bind {x : Traced α} {s : Stop} (hx : x.Stops s) (k : α → Traced β) :
    (x >>= k).Stops s := by
  intro w
  rcases hrun : x.run w with ⟨r, u⟩
  obtain rfl : r = .error s := (congrArg Prod.fst hrun).symm.trans (hx w)
  rw [run_bind, hrun]
  rfl

theorem used {x : Traced Value} {s : Stop} (hx : x.Stops s) {e : Expr} : (used e x).Stops s := by
  intro w
  rw [run_used]
  exact hx w

/-- A node stops if its rule does. -/
theorem node {limits : Limits} (h : limits.steps ≤ 0) {x : Traced Value} {s : Stop}
    (hx : x.Stops s) : (noted (Traced.step limits >>= fun _ => x)).Stops s := by
  intro w
  rw [run_noted]
  exact (Yields.step h).bind_stops (fun _ _ => hx) w

end Stops

end Traced

variable {calls : Nat} {limits : Limits} {node : Node} {scope : ScopeId}

/-- A tree that yields a value is run with that value as its result. -/
theorem value_of_yields {P : Value → Prop}
    (h : (node.trace (.ofLimits limits calls) scope).Yields P) (w : World) :
    ∃ v, (runWith calls limits node scope w).1 = .value v ∧ P v := by
  obtain ⟨v, hv, hP⟩ := h { w with steps := 0 }
  refine ⟨v, ?_, hP⟩
  rw [runWith_eq_conclude]
  rcases hrun : (node.trace (.ofLimits limits calls) scope).run { w with steps := 0 } with ⟨r, w'⟩
  rw [hrun] at hv
  obtain rfl : r = .ok v := hv
  rfl

/-- A tree that stops with a fault is run with that fault as its result. -/
theorem error_of_stops {f : Fault}
    (h : (node.trace (.ofLimits limits calls) scope).Stops (.fault f)) (w : World) :
    (runWith calls limits node scope w).1 = .value (.error f) := by
  have hf := h { w with steps := 0 }
  rw [runWith_eq_conclude]
  rcases hrun : (node.trace (.ofLimits limits calls) scope).run { w with steps := 0 } with ⟨r, w'⟩
  rw [hrun] at hf
  obtain rfl : r = .error (.fault f) := hf
  rfl

end Monkey
