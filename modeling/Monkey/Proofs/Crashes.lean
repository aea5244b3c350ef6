import Monkey.Proofs.CutShort

/-!
# What a run can crash at

A run of a tree that has nothing in it that leads to a crash of some kind does not crash in that
way, if no function in the heap has such a thing either, and then none has after the run
(`run_freeOf`). This is one law for each kind of crash (`freeOf`). Only two kinds can come from a
tree at all, so a run that meets only nodes of the language crashes at most where something is
missing (`crashed_absent`).
-/

namespace Monkey

open Traced

/-! ## Values that can be shown -/

mutual

/-- A value can be shown, unless something is missing from a function in it. -/
theorem Value.shown_cases : (v : Value) → v.shown = .ok v.inspect ∨
    v.shown = .error .absent ∧ ¬ v.Everywhere fun u => u.isFreeOf .absent = true
  | .int _ | .str _ | .bool _ | .null | .builtin _ | .error _ => .inl rfl
  | .array _ items => by
    rcases shownItems_cases items with h | ⟨h, v, hv, hmissing⟩
    · exact .inl (by rw [Value.shown, h]; rfl)
    · exact .inr ⟨by rw [Value.shown, h]; rfl, fun hall => hmissing (hall.item v hv)⟩
  | .hash _ entries => by
    rcases shownEntries_cases entries with h | ⟨h, k, v, hv, hmissing⟩
    · exact .inl (by rw [Value.shown, h]; rfl)
    · exact .inr ⟨by rw [Value.shown, h]; rfl, fun hall => hmissing (hall.entry hv)⟩
  | .fn ref params body scope => by
    have hfree (h : (params.all Option.isSome && body.isFreeOf .absent) = false) :
        ¬ (Value.fn ref params body scope).Everywhere fun u => u.isFreeOf .absent = true := by
      intro hall
      exact Bool.false_ne_true (h.symm.trans hall.self)
    rw [Value.shown, shownNames_eq, body.shown_eq]
    -- a function is shown with its parameters and its body, so both have to be free of absent parts
    cases hparams : params.all Option.isSome
    · exact .inr ⟨rfl, hfree (by rw [hparams]; rfl)⟩
    · cases hbody : body.isFreeOf .absent
      · exact .inr ⟨rfl, hfree (by rw [hbody, Bool.and_false])⟩
      · exact .inl rfl
  | .returned _ value => value.shown_cases.imp_right fun ⟨h, hmissing⟩ =>
    ⟨h, fun hall => hmissing fun u hu => hall u (.wrapped hu)⟩

theorem shownItems_cases : (vs : List Value) →
    shownItems vs = .ok (Value.inspectItems vs) ∨ shownItems vs = .error .absent ∧
      ∃ v ∈ vs, ¬ v.Everywhere fun u => u.isFreeOf .absent = true
  | [] => .inl rfl
  | v :: others => by
    rw [shownItems]
    rcases v.shown_cases with h | ⟨h, hmissing⟩
    · rw [h]
      rcases shownItems_cases others with h' | ⟨h', u, hu, hmissing⟩
      · exact .inl (by rw [h']; rfl)
      · exact .inr ⟨by rw [h']; rfl, u, List.mem_cons_of_mem v hu, hmissing⟩
    · exact .inr ⟨by rw [h]; rfl, v, List.mem_cons_self, hmissing⟩

theorem shownEntries_cases : (entries : List (Key × Value)) →
    shownEntries entries = .ok (Value.inspectEntries entries) ∨
      shownEntries entries = .error .absent ∧
      ∃ k v, (k, v) ∈ entries ∧ ¬ v.Everywhere fun u => u.isFreeOf .absent = true
  | [] => .inl rfl
  | (key, v) :: others => by
    rw [shownEntries]
    rcases v.shown_cases with h | ⟨h, hmissing⟩
    · rw [h]
      rcases shownEntries_cases others with h' | ⟨h', k, u, hu, hmissing⟩
      · exact .inl (by rw [h']; rfl)
      · exact .inr ⟨by rw [h']; rfl, k, u, List.mem_cons_of_mem _ hu, hmissing⟩
    · exact .inr ⟨by rw [h]; rfl, key, v, List.mem_cons_self, hmissing⟩

end

/-! ## The law -/

/-- No function in a heap, also none inside other values, has anything in it that leads to a crash
of a kind. -/
def Heap.FreeOf (c : Crash) (h : Heap) : Prop :=
  h.Everywhere fun v => v.isFreeOf c = true

/-- Some events keep a heap free of what leads to a crash of a kind. -/
def KeepsFree (c : Crash) (w : World) (es : List EvalEvent) : Prop :=
  w.heap.FreeOf c → (w.after es).heap.FreeOf c

variable {c : Crash} {w : World} {es es' : List EvalEvent}

theorem KeepsFree.append (h : KeepsFree c w es) (h' : KeepsFree c (w.after es) es') :
    KeepsFree c w (es ++ es') := by
  intro hw
  rw [World.after_append]
  exact h' (h hw)

/-- Along a run that has nothing in it that leads to a crash of a kind, in the tree and in
functions, there is no such crash, and the heap stays free of it, up to the end or up to a stop. -/
def freeOf (c : Crash) : Law where
  value v := v.isFreeOf c = true
  allows c' := c' ≠ c
  passes := Value.Everywhere fun v => v.isFreeOf c = true
  yields _ := Value.Everywhere fun v => v.isFreeOf c = true
  good := KeepsFree c
  ended s w es := s ≠ .crash c ∧ KeepsFree c w es
  lawful.value_of_isData {v} hv := by cases v <;> first | rfl | cases hv
  lawful.value_of_isFreeOf _ h := (h c).resolve_left fun hne => hne rfl
  lawful.isFreeOf_of_value c' h := by
    by_cases hc : c' = c
    · exact .inr (hc ▸ h)
    · exact .inl hc
  lawful.allows_of_shown {v c'} hv h := by
    rintro rfl
    rcases v.shown_cases with hok | ⟨herror, hmissing⟩
    · cases h.symm.trans hok
    · cases h.symm.trans herror
      exact hmissing hv
  lawful.passes_of_kept := id
  lawful.passes_returned {ref v} h u hu := by
    cases hu with
    | self => rfl
    | wrapped hu => exact h u hu
  lawful.passes_of_yields := id
  lawful.yields_of_kept := id
  lawful.yields_cond := id
  lawful.kept_of_returned h u hu := h u (.wrapped hu)
  lawful.kept_of_passes h _ := h
  lawful.good_nil _ := id
  lawful.good_append := KeepsFree.append
  lawful.good_drew _ := id
  lawful.good_printed _ _ := id
  lawful.good_enclosed _ outer hw := hw.enclose outer
  lawful.good_bound _ hv hw := hw.bind _ _ hv
  lawful.good_yielded _ := id
  lawful.use h := .inl ⟨h, id⟩
  lawful.append_ended h h' := ⟨h'.1, h.append h'.2⟩
  lawful.ended_crash _ _ hne := ⟨fun h => hne (Stop.crash.inj h), id⟩
  lawful.ended_fail _ := ⟨nofun, id⟩
  lawful.ended_raise _ := ⟨nofun, id⟩
  lawful.ended_yielded h := ⟨nofun, h.2.append id⟩

variable {limits : Limits} {node : Node}

theorem freeOf_step : (freeOf c).Obeys (fun _ => True) (step limits) :=
  .step (fun _ => id) fun _ _ => ⟨nofun, id⟩

theorem freeOf_governs (c : Crash) (limits : Limits) (calls : Nat) :
    (freeOf c).Governs (.ofLimits limits calls) := by
  refine ⟨freeOf_step, fun f vs hf hvs => ?_⟩
  exact Law.obeys_call (fun _ _ => trivial) freeOf_step (fun _ _ => ⟨nofun, id⟩)
    (fun _ => ⟨nofun, id⟩) calls 0 hf hvs

/-! ## Runs -/

/-- A run that has nothing in it that leads to a crash of a kind does not crash in that way, and
leaves a heap that has no such thing either. -/
theorem run_freeOf (calls : Nat) (limits : Limits) (scope : ScopeId)
    (hnode : node.isFreeOf c = true)
    (hheap : w.heap.FreeOf c) :
    (runWith calls limits node scope w).1 ≠ .crashed c ∧
      (runWith calls limits node scope w).2.heap.FreeOf c := by
  have hsuits : (freeOf c).Suits scope (node.isFreeOf ·) node.lets := by
    refine ⟨fun c' => ?_, fun _ _ => trivial⟩
    by_cases hc : c' = c
    · exact .inr (hc ▸ hnode)
    · exact .inl hc
  have h := Law.obeys_node (freeOf_governs c limits calls) scope node hsuits { w with steps := 0 }
    hheap
  rw [runWith_eq_trace, trace_eq]
  generalize node.trace (.ofLimits limits calls) scope { w with steps := 0 } = r at h ⊢
  rcases r with ⟨es, (f | c' | _) | v⟩
  · refine ⟨Outcome.noConfusion, ?_⟩
    have hlogged : KeepsFree c (({ w with steps := 0 } : World).after es) [.logged f.report] := id
    exact h.2.append hlogged hheap
  · exact ⟨fun hc => h.1 (congrArg Stop.crash (Outcome.crashed.inj hc)), h.2 hheap⟩
  · exact ⟨Outcome.noConfusion, h.2 hheap⟩
  · exact ⟨Outcome.noConfusion, (h.resolve_right id).2.1⟩

/-- A run that meets only nodes of the language crashes at most where something is missing. -/
theorem crashed_absent {calls : Nat} {scope : ScopeId} (hnode : node.isFreeOf .unhandledNode = true)
    (hheap : w.heap.FreeOf .unhandledNode)
    (h : (runWith calls limits node scope w).1 = .crashed c) : c = .absent := by
  have hinert (hc : c.Inert) : c = .absent := by
    refine absurd h (run_freeOf calls limits scope (node.isFreeOf_inert hc) ?_).1
    exact fun _ _ _ _ _ u _ => u.isFreeOf_inert hc
  cases c with
  | unhandledNode => exact absurd h (run_freeOf calls limits scope hnode hheap).1
  | outOfRange => exact hinert ⟨nofun, nofun⟩
  | divisionByZero => exact hinert ⟨nofun, nofun⟩
  | absent => rfl

end Monkey
