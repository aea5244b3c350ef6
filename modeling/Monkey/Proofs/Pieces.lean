import Monkey.Proofs.Composition
import Monkey.Session

/-!
# A session in pieces

Sources that are evaluated one after the other in a session do what one source does that holds them
all, if each of their statements lets the next one be evaluated.

The whole source has the statements of the pieces, up to positions (`parse_join`). Statements that
go on can be cut anywhere (`evalStatements_append`), so what is left is to compare a piece,
evaluated in the session, with the same statements as a stretch of the whole. The two begin with the
same heap, up to positions; in the whole more nodes have been counted and more has been printed
before, which makes no difference when steps are not limited (`continuing`). The induction over the
pieces is `run_pieces`.
-/

namespace Monkey

/-! ## Statements that go on -/

/-- Whether the next statement is evaluated when one has this result: it is a value, and neither a
fault nor a return wrapper. -/
def Outcome.goesOn : Outcome → Bool
  | .value v => !(v.isError || v.isReturned)
  | .crashed _ => false
  | .exhausted => false

/-- Whether each of some statements, run one after the other, lets the next one be evaluated. -/
def proceeds (calls : Nat) (limits : Limits) (scope : ScopeId) : List Stmt → World → Bool
  | [], _ => true
  | s :: rest, w =>
      (runWith calls limits (.stmt s) scope w).1.goesOn &&
        proceeds calls limits scope rest (runWith calls limits (.stmt s) scope w).2

variable {m m' : Tracer} {limits : Limits} {scope : ScopeId} {calls : Nat}

/-- Evaluated one after the other, none of these statements stops or yields a return wrapper. -/
def Unbroken (m : Tracer) (scope : ScopeId) : List Stmt → World → Prop
  | [], _ => True
  | s :: rest, w =>
      ∃ v w₁, (s.trace m scope).run w = (.ok v, w₁) ∧ v.isReturned = false ∧
        Unbroken m scope rest w₁

/-- A run that goes on is an evaluation that did not stop. -/
theorem goesOn_conclude {x : Except Stop Value × World} (h : (conclude x).1.goesOn = true) :
    ∃ v w, x = (.ok v, w) ∧ v.isReturned = false := by
  obtain ⟨(f | c | _) | v, w⟩ := x
  · cases h
  · cases h
  · cases h
  · refine ⟨v, w, rfl, ?_⟩
    have hv : v.isError = false ∧ v.isReturned = false := by
      simpa [conclude, Outcome.goesOn] using h
    exact hv.2

/-- Statements that proceed when they are run by themselves are unbroken where they stand in an
evaluation that is alike, for there it makes no difference that nodes were counted before. -/
theorem unbroken_of_proceeds {L : Likeness} (h : L.Tracers (.ofLimits limits calls) m')
    (hcounts : ∀ n n', L.steps n n') (ss : List Stmt) {w w' : World} (hlike : L.Like w w')
    (hss : proceeds calls limits scope ss w = true) :
    Unbroken m' scope (relocateStatements L.node L.statement ss) w' := by
  induction ss generalizing w w' with
  | nil => trivial
  | cons s rest ih =>
      rw [proceeds, runWith_eq_conclude] at hss
      obtain ⟨hfirst, hrest⟩ := Bool.and_eq_true_iff.mp hss
      -- a run counts from zero; the likeness does not compare counts
      obtain ⟨hresult, hafter⟩ := Likeness.mirrors_stmt h scope s { w with steps := 0 } w'
        { hlike with steps := hcounts _ _ }
      obtain ⟨v, w₁, hs, hv⟩ := goesOn_conclude hfirst
      rw [Node.trace] at hs hrest
      rw [hs] at hresult hafter hrest
      exact ⟨L.value v, _, Prod.ext hresult rfl, v.isReturned_relocate.trans hv, ih hafter hrest⟩

/-- A statement that goes on is followed by the next one. -/
theorem run_evalStatements_cons {s : Stmt} {w w₁ : World} {v : Value}
    (hs : (s.trace m scope).run w = (.ok v, w₁)) (hv : v.isReturned = false) (last : Value)
    (rest : List Stmt) :
    (traceStatements m scope last (s :: rest)).run w = (traceStatements m scope v rest).run w₁ := by
  rw [traceStatements, Traced.run_bind, hs]
  show (if v.isReturned then pure v else traceStatements m scope v rest : Traced Value).run w₁ = _
  rw [if_neg (Bool.eq_false_iff.mp hv)]

/-- Statements that are unbroken have a value, which is no return wrapper, and more may follow
them. -/
theorem evalStatements_append {ss : List Stmt} {w : World} (h : Unbroken m scope ss w)
    (last : Value) (hlast : last.isReturned = false) :
    ∃ v w₁, (traceStatements m scope last ss).run w = (.ok v, w₁) ∧ v.isReturned = false ∧
      ∀ more, (traceStatements m scope last (ss ++ more)).run w
        = (traceStatements m scope v more).run w₁ := by
  induction ss generalizing w last with
  | nil => exact ⟨last, w, rfl, hlast, fun _ => rfl⟩
  | cons s rest ih =>
      obtain ⟨v, w₁, hs, hv, hrest⟩ := h
      obtain ⟨v', w', hrun, hv', hmore⟩ := ih hrest v hv
      refine ⟨v', w', ?_, hv', fun more => ?_⟩
      · rw [run_evalStatements_cons hs hv]
        exact hrun
      · rw [List.cons_append, run_evalStatements_cons hs hv]
        exact hmore more

/-! ## Programs in a session -/

/-- A program whose statements have a value has that value. -/
theorem run_program {p : Program} {w w₁ : World} {v : Value} (hsteps : m.limits.steps ≤ 0)
    (hrun : (traceStatements m scope .null p.statements).run { w with steps := w.steps + 1 }
      = (.ok v, w₁)) (hv : v.isReturned = false) :
    (Node.trace m scope (.program p)).run w = (.ok v, w₁) := by
  rw [Node.trace, Traced.run_noted, Traced.run_bind, Traced.run_step hsteps]
  show (traceStatements m scope .null p.statements >>= traceUnwrap).run
    { w with steps := w.steps + 1 } = _
  rw [Traced.run_bind, hrun]
  cases v with
  | returned ref v => cases hv
  | _ => rfl

namespace Session

/-- The world in which the first statement of a program is evaluated. -/
def entry (s : Session) : World :=
  { s.world with steps := 1, output := [], log := [] }

/-- Evaluate a node in the scope of a session, with at most `calls` calls inside one another. -/
def evaluateWith (calls : Nat) (s : Session) (node : Node) : Outcome × Session :=
  let (outcome, world) := runWith calls s.limits node 0 { s.world with output := [], log := [] }
  (outcome, { s with world })

/-- A session evaluates with as many calls as its limits allow. -/
theorem evaluate_eq (s : Session) (node : Node) :
    s.evaluate node = s.evaluateWith s.limits.calls node :=
  rfl

/-- Evaluate programs one after the other: the results, each with the session after it. -/
def evaluateAll (calls : Nat) (s : Session) : List Program → List (Outcome × Session)
  | [] => []
  | p :: rest =>
      s.evaluateWith calls (.program p) ::
        (s.evaluateWith calls (.program p)).2.evaluateAll calls rest

/-- Whether each statement of each of some programs lets the next one be evaluated, when the
programs are evaluated one after the other. -/
def proceedsThrough (calls : Nat) (s : Session) : List Program → Bool
  | [] => true
  | p :: rest =>
      proceeds calls s.limits 0 p.statements { s.world with output := [], log := [] } &&
        (s.evaluateWith calls (.program p)).2.proceedsThrough calls rest

/-- A session that evaluates a program whose statements have a value yields that value. -/
theorem evaluateWith_program {s : Session} (hsteps : s.limits.steps ≤ 0) {p : Program} {v : Value}
    {w : World}
    (hrun : (traceStatements (.ofLimits s.limits calls) 0 .null p.statements).run s.entry
      = (.ok v, w)) (hv : v.isReturned = false) :
    s.evaluateWith calls (.program p) = (.value v, ⟨s.limits, w⟩) := by
  rw [evaluateWith, runWith_eq_conclude]
  rw [run_program hsteps hrun hv]
  rfl

end Session

/-! ## Pieces and stretches -/

/-- Two worlds that are the same up to positions, where the second has printed more before. -/
def continuing (before : Text) : Likeness where
  node := Origin.unplaced
  statement := Origin.unplaced
  steps _ _ := True
  output t t' := t' = before ++ t
  log _ _ := True
  literal_node := Origin.unplaced_literal
  steps_succ _ := trivial
  output_append more h := by rw [h, List.append_assoc]
  log_append _ _ := trivial

/-- The statements of a program without positions. -/
def Program.plainStatements (p : Program) : List Stmt :=
  relocateStatements Origin.unplaced Origin.unplaced p.statements

/-- A value without positions. -/
def Value.unplaced (v : Value) : Value :=
  v.relocate Origin.unplaced Origin.unplaced

/-- A heap without positions. -/
def Heap.unplaced (h : Heap) : Heap :=
  h.relocate Origin.unplaced Origin.unplaced

/-- A result without positions. -/
def Outcome.unplaced (o : Outcome) : Outcome :=
  o.relocate Origin.unplaced Origin.unplaced

/-- What the last statement before was worth does not matter, if there is another. -/
theorem evalStatements_last {ss : List Stmt} (hne : ss ≠ []) (last last' : Value) :
    traceStatements m scope last ss = traceStatements m scope last' ss := by
  cases ss with
  | nil => exact absurd rfl hne
  | cons s rest => rfl

/-- One piece as a stretch of the whole: from worlds that are alike, its statements yield the same
value as the piece, what follows them is evaluated next, and the worlds are alike again, with what
the piece printed. -/
theorem run_piece {s : Session} (hsteps : s.limits.steps ≤ 0) {p : Program}
    (hp : p.statements ≠ [])
    (h : proceeds calls s.limits 0 p.statements { s.world with output := [], log := [] } = true)
    {before : Text} {u : World} (hlike : (continuing before).Like s.entry u) (last : Value)
    (more : List Stmt) :
    ∃ v w u', v.isReturned = false ∧ s.evaluateWith calls (.program p) = (.value v, ⟨s.limits, w⟩) ∧
      (continuing (before ++ w.output)).Like (Session.mk s.limits w).entry u' ∧
      (traceStatements (.ofLimits s.limits calls) 0 last (p.plainStatements ++ more)).run u
        = (traceStatements (.ofLimits s.limits calls) 0 v.unplaced more).run u' := by
  have htracers : (continuing before).Tracers (.ofLimits s.limits calls)
      (.ofLimits s.limits calls) :=
    Likeness.tracers_ofLimits (.unlimitedStep hsteps) _
  -- the stretch goes on as the piece does, so that more can be evaluated after it
  have hbegins : (continuing before).Like { s.world with output := [], log := [] } u :=
    { hlike with steps := trivial }
  have hstretch : Unbroken (.ofLimits s.limits calls) 0 p.plainStatements u :=
    unbroken_of_proceeds htracers (fun _ _ => trivial) p.statements hbegins h
  obtain ⟨v', u', hrun', hv', hmore⟩ := evalStatements_append hstretch .null rfl
  have hmirrors : (continuing before).Mirrors Value.unplaced
      (traceStatements (.ofLimits s.limits calls) 0 .null p.statements)
      (traceStatements (.ofLimits s.limits calls) 0 .null p.plainStatements) :=
    Likeness.mirrors_statements htracers 0 p.statements .null
  obtain ⟨hresult, hafter⟩ := hmirrors s.entry u hlike
  rw [hrun'] at hresult hafter
  -- since the stretch has a value, the piece has one
  rcases hrun : (traceStatements (.ofLimits s.limits calls) 0 .null p.statements).run s.entry with
    ⟨stop | v, w⟩ <;> rw [hrun] at hresult hafter
  · cases hresult
  obtain rfl : v' = v.unplaced := Except.ok.inj hresult
  have hv : v.isReturned = false := v.isReturned_relocate.symm.trans hv'
  refine ⟨v, w, u', hv, Session.evaluateWith_program hsteps hrun hv, ?_, ?_⟩
  -- the next piece begins with nothing printed: what this one printed is printed before it
  · exact ⟨hafter.heap, hafter.nextRef, trivial,
      hafter.output.trans (List.append_nil _).symm, trivial⟩
  · have hne : p.plainStatements ++ more ≠ [] := by
      refine List.append_ne_nil_of_left_ne_nil ?_ more
      rw [Program.plainStatements]
      cases hss : p.statements with
      | nil => exact absurd hss hp
      | cons first rest => exact List.cons_ne_nil _ _
    rw [evalStatements_last hne last .null]
    exact hmore more

/-- All pieces as the whole. The induction is on the pieces; what is kept is that the session and
the whole are alike where the next piece begins. -/
theorem run_pieces (ps : List Program) (hps : ∀ p ∈ ps, p.statements ≠ []) {s : Session}
    (hsteps : s.limits.steps ≤ 0) (h : s.proceedsThrough calls ps = true) {before : Text}
    {u : World}
    (hlike : (continuing before).Like s.entry u) {last : Value} (hlast : last.isReturned = false) :
    ∃ v s' u', v.isReturned = false ∧
      (s.evaluateAll calls ps).getLastD (.value last, s) = (.value v, s') ∧
      (traceStatements (.ofLimits s.limits calls) 0 last.unplaced
        (ps.flatMap Program.plainStatements)).run u = (.ok v.unplaced, u') ∧
      u'.heap = s'.world.heap.unplaced ∧
      u'.output = before ++ (s.evaluateAll calls ps).flatMap fun piece => piece.2.world.output := by
  induction ps generalizing s before u last with
  | nil =>
      exact ⟨last, s, u, hlast, rfl, rfl, hlike.heap, hlike.output⟩
  | cons p rest ih =>
      obtain ⟨hp, hrest⟩ := List.forall_mem_cons.mp hps
      obtain ⟨hpiece, hpieces⟩ := Bool.and_eq_true_iff.mp h
      -- the first piece is a stretch of the whole, and leaves a session in which the others go on
      obtain ⟨v, w, u₁, hv, hevaluate, hlike₁, hrun⟩ := run_piece hsteps hp hpiece hlike
        last.unplaced (rest.flatMap Program.plainStatements)
      rw [hevaluate] at hpieces
      obtain ⟨v', s', u', hv', hfinal, hrest', hheap, houtput⟩ :=
        ih hrest (s := ⟨s.limits, w⟩) hsteps hpieces hlike₁ hv
      refine ⟨v', s', u', hv', ?_, ?_, hheap, ?_⟩
      · rw [Session.evaluateAll, hevaluate, List.getLastD_cons]
        exact hfinal
      · rw [List.flatMap_cons, hrun]
        exact hrest'
      · rw [houtput, Session.evaluateAll, hevaluate, List.flatMap_cons, List.append_assoc]

/-- A program that has the statements of the pieces, up to positions, does what they do. -/
theorem evaluate_whole (hsteps : limits.steps ≤ 0) {ps : List Program}
    (hne : ps ≠ []) (hps : ∀ p ∈ ps, p.statements ≠ [])
    (h : (Session.mk limits .fresh).proceedsThrough calls ps = true) {whole : Program}
    (hwhole : whole.plainStatements = ps.flatMap Program.plainStatements) :
    ∃ last, ((Session.mk limits .fresh).evaluateAll calls ps).getLast? = some last ∧
      ((Session.mk limits .fresh).evaluateWith calls (.program whole)).1.unplaced
        = last.1.unplaced ∧
      ((Session.mk limits .fresh).evaluateWith calls (.program whole)).2.world.heap.unplaced
        = last.2.world.heap.unplaced ∧
      ((Session.mk limits .fresh).evaluateWith calls (.program whole)).2.world.output
        = ((Session.mk limits .fresh).evaluateAll calls ps).flatMap
          fun piece => piece.2.world.output := by
  have hlike :
      (continuing []).Like (Session.mk limits .fresh).entry { World.fresh with steps := 1 } :=
    ⟨(World.relocate_fresh _ _).symm, rfl, trivial, rfl, trivial⟩
  have hnull : Value.null.isReturned = false := rfl
  obtain ⟨v, s, u, hv, hfinal, hrun, hheap, houtput⟩ := run_pieces ps hps hsteps h hlike hnull
  -- the whole without positions, and with them
  rw [← hwhole] at hrun
  have hvalue : (Node.trace (.ofLimits limits calls) 0 (.program whole.unplaced)).run .fresh
      = (.ok v.unplaced, u) :=
    run_program hsteps hrun (v.isReturned_relocate.trans hv)
  have hplain : runWith calls limits (.program whole.unplaced) 0 .fresh
      = (.value v.unplaced, u) := by
    rw [runWith_eq_conclude]
    exact congrArg conclude hvalue
  obtain ⟨houtcome, hworld⟩ := placeless_runWith calls limits whole 0 placeless_fresh
  rw [hplain] at houtcome hworld
  refine ⟨(.value v, s), ?_, houtcome.symm, hworld.heap.symm.trans hheap,
    hworld.output.trans houtput⟩
  cases ps with
  | nil => exact absurd rfl hne
  | cons p rest =>
      rw [Session.evaluateAll, List.getLastD_cons] at hfinal
      rw [Session.evaluateAll, List.getLast?_cons, ← List.getLastD_eq_getLast?, hfinal]

/-! ## Sources -/

theorem statements_ne_nil {source : Text} (hclean : (parse source).diagnostics = [])
    (hends : EndsInSemicolon source) : (parse source).program.statements ≠ [] := by
  obtain ⟨⟨cs, hproper, hyield⟩, htree⟩ := derivation_of_diagnostics hclean
  intro hnil
  have hshape := congrArg Program.statements htree
  rw [Program.shape, hnil] at hshape
  -- a derivation without statements derives no terminal
  cases cs with
  | cons c cs => cases hshape
  | nil =>
      have htokens : (tokenize source).dropLast = [] := List.map_eq_nil_iff.mp hyield.symm
      rw [EndsInSemicolon, htokens] at hends
      cases hends

/-- The programs that sources are read as. -/
def programs (sources : List Text) : List Program :=
  sources.map fun source => (parse source).program

/-- The statements of sources on lines of their own are those of the sources, up to positions. -/
theorem parse_join {sources : List Text} (hne : sources ≠ [])
    (h : ∀ source ∈ sources, (parse source).diagnostics = [] ∧ EndsInSemicolon source) :
    (parse (Text.join (text "\n") sources)).diagnostics = [] ∧
      (parse (Text.join (text "\n") sources)).program.plainStatements
        = (programs sources).flatMap Program.plainStatements := by
  induction sources with
  | nil => exact absurd rfl hne
  | cons first rest ih =>
      obtain ⟨⟨hclean, hends⟩, hrest⟩ := List.forall_mem_cons.mp h
      cases rest with
      | nil => exact ⟨hclean, (List.flatMap_singleton Program.plainStatements _).symm⟩
      | cons next rest =>
          obtain ⟨hdiagnostics, hstatements⟩ := ih (List.cons_ne_nil _ _) hrest
          have hsource : Text.join (text "\n") (first :: next :: rest)
              = first ++ 0x0a :: Text.join (text "\n") (next :: rest) :=
            List.append_assoc first (text "\n") _
          rw [hsource, parse_above hclean hends]
          refine ⟨?_, ?_⟩
          · rw [Parsed.diagnostics, List.map_eq_nil_iff] at hdiagnostics
            rw [Parsed.diagnostics, hdiagnostics]
            rfl
          · rw [programs, List.map_cons, List.flatMap_cons, ← programs, ← hstatements,
              Program.plainStatements]
            show relocateStatements _ _ (_ ++ _) = _
            rw [relocateStatements_append, relocateStatements_relocate]
            rfl

/-- **A session in pieces is the whole program.** Let sources be read without diagnostics, each with
a semicolon as its last token, and let a session without a limit on steps evaluate them one after
the other, from a fresh world, given any number of calls, such that no statement of theirs yields a
fault or a return wrapper. Then the sources on lines of their own are read without diagnostics, and
a fresh session that evaluates them at once yields what the last piece yields, leaves the same
contents in all scopes, up to positions, and prints what the pieces printed together. -/
theorem pieces_equal_whole (hsteps : limits.steps ≤ 0) {sources : List Text}
    (hne : sources ≠ [])
    (hsources : ∀ source ∈ sources, (parse source).diagnostics = [] ∧ EndsInSemicolon source)
    (hproceeds : (Session.mk limits .fresh).proceedsThrough calls (programs sources) = true) :
    let whole := parse (Text.join (text "\n") sources)
    let result := (Session.mk limits .fresh).evaluateWith calls (.program whole.program)
    let pieces := (Session.mk limits .fresh).evaluateAll calls (programs sources)
    whole.diagnostics = [] ∧ ∃ last, pieces.getLast? = some last ∧
      result.1.shown = last.1.shown ∧ result.1.unplaced = last.1.unplaced ∧
      result.2.world.heap.unplaced = last.2.world.heap.unplaced ∧
      result.2.world.output = pieces.flatMap fun piece => piece.2.world.output := by
  intro whole result pieces
  obtain ⟨hdiagnostics, hstatements⟩ := parse_join hne hsources
  have hps : ∀ p ∈ programs sources, p.statements ≠ [] := by
    intro p hp
    obtain ⟨source, hsource, rfl⟩ := List.mem_map.mp hp
    exact statements_ne_nil (hsources source hsource).1 (hsources source hsource).2
  have hprograms : programs sources ≠ [] := fun hnil => hne (List.map_eq_nil_iff.mp hnil)
  obtain ⟨last, hlast, houtcome, hheap, houtput⟩ :=
    evaluate_whole hsteps hprograms hps hproceeds hstatements
  refine ⟨hdiagnostics, last, hlast, ?_, houtcome, hheap, houtput⟩
  rw [← Outcome.shown_relocate Origin.unplaced_literal, ← Outcome.shown_relocate
    Origin.unplaced_literal last.1]
  exact congrArg Outcome.shown houtcome

/-- Two pieces: the second uses what the first bound, prints it and yields a function. -/
def twoPieces : List Text :=
  [text "let a = true;", text "puts(a); fn() \x7b a \x7d;"]

/-- The function stands elsewhere in the whole, and is the same but for that. -/
theorem pieces_equal_whole_twoPieces :
    (∀ source ∈ twoPieces, (parse source).diagnostics = [] ∧ EndsInSemicolon source) ∧
    (Session.mk { depth := 1 } .fresh).proceedsThrough 2 (programs twoPieces) = true ∧
    let whole := parse (Text.join (text "\n") twoPieces)
    let result := (Session.mk { depth := 1 } .fresh).evaluate (.program whole.program)
    let pieces := (Session.mk { depth := 1 } .fresh).evaluateAll 2 (programs twoPieces)
    whole.diagnostics = [] ∧ ∃ last, pieces.getLast? = some last ∧
      result.1.shown = last.1.shown ∧ result.1.unplaced = last.1.unplaced ∧
      result.2.world.heap.unplaced = last.2.world.heap.unplaced ∧
      result.2.world.output = pieces.flatMap fun piece => piece.2.world.output := by
  have hsources :
      ∀ source ∈ twoPieces, (parse source).diagnostics = [] ∧ EndsInSemicolon source := by
    decide +kernel
  have hproceeds : (Session.mk { depth := 1 } .fresh).proceedsThrough 2 (programs twoPieces)
      = true := by
    decide +kernel
  refine ⟨hsources, hproceeds, ?_⟩
  simp only [Session.evaluate_eq]
  exact pieces_equal_whole (Int.le_refl 0) (List.cons_ne_nil _ _) hsources hproceeds

end Monkey
