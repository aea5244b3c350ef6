import Mathlib.Logic.Relation
import Monkey.Command.Batch

/-!
# Files in any order

Files may also be evaluated at the same time. Each has a task of its own. The tasks are started in
the order of the files, and no more than a few are underway at any time; else they go on in any
order. They share a log, the first error that a task has ended with, and whether the others are to
give up. A task that finds that it has to give up ends with an error too, but nobody is told to give
up before an error is recorded. At the end each task has left its report in a place of its own, or
there is an error.

`Batch.Step` is what can happen next. Whatever happens, all tasks end, and what the files printed is
shown in their order, as `runFiles` shows it. Only the records of the log may be in another order
(`every_schedule_agrees`).
-/

namespace Monkey

/-! ## Tasks -/

/-- What a task that fails ends with: it had to give up, or its file cannot be read. -/
inductive TaskError where
  | cancelled
  | unreadable (name : Text) (problem : FileProblem)

/-- How far a task is: it waits to be started; it has not yet looked whether it has to give up; it
is about to read its file; it has written some records of its report to the log; it is about to end
with an error; it has recorded its error and not yet told the others to give up; or it has ended,
with a report or without one. -/
inductive Stage where
  | waiting
  | started
  | allowed
  | logging (report : FileReport) (written : Nat)
  | failing (e : TaskError)
  | recorded
  | finished (report : Option FileReport)

/-- What tasks share: the log, the first error, and whether to give up. -/
structure Shared where
  log : List LogRecord := []
  error : Option TaskError := none
  cancelled : Bool := false

/-- One step of a task. -/
inductive Stage.Step (limits : Limits) (read : Text → Except FileProblem Text) (name : Text) :
    Stage → Shared → Stage → Shared → Prop
  | allow {s : Shared} : s.cancelled = false → Step limits read name .started s .allowed s
  | giveUp {s : Shared} :
      s.cancelled = true → Step limits read name .started s (.failing .cancelled) s
  | unreadable {s : Shared} {problem : FileProblem} : read name = .error problem →
      Step limits read name .allowed s (.failing (.unreadable name problem)) s
  | evaluate {s : Shared} {source : Text} : read name = .ok source →
      Step limits read name .allowed s (.logging (.ofSource limits name source) 0) s
  | write {s : Shared} {report : FileReport} {written : Nat} {r : LogRecord} :
      report.log[written]? = some r →
      Step limits read name (.logging report written) s (.logging report (written + 1))
        { s with log := s.log ++ [r] }
  | store {s : Shared} {report : FileReport} {written : Nat} : report.log.length ≤ written →
      Step limits read name (.logging report written) s (.finished (some report)) s
  | record {s : Shared} {e : TaskError} : s.error = none →
      Step limits read name (.failing e) s .recorded { s with error := some e }
  | late {s : Shared} {e e' : TaskError} : s.error = some e' →
      Step limits read name (.failing e) s (.finished none) s
  | cancel {s : Shared} :
      Step limits read name .recorded s (.finished none) { s with cancelled := true }

namespace Stage

/-- Whether a task waits to be started. -/
def isWaiting : Stage → Bool
  | .waiting => true
  | _ => false

/-- Whether a task has ended. -/
def isFinished : Stage → Bool
  | .finished _ => true
  | _ => false

/-- Whether a task is underway. -/
def isUnderway (st : Stage) : Bool :=
  !st.isWaiting && !st.isFinished

theorem eq_waiting {st : Stage} (h : st.isWaiting = true) : st = .waiting := by
  cases st <;> first | rfl | cases h

theorem not_waiting {st : Stage} (h : st.isFinished = true) : st.isWaiting = false := by
  cases st <;> first | rfl | cases h

theorem waiting_or_underway_or_finished (st : Stage) :
    st.isWaiting = true ∨ st.isUnderway = true ∨ st.isFinished = true := by
  cases st with
  | waiting => exact .inl rfl
  | finished report => exact .inr (.inr rfl)
  | _ => exact .inr (.inl rfl)

/-- The report that a task has left. -/
def report? : Stage → Option FileReport
  | .finished report => report
  | _ => none

/-- What a task has written to the log. -/
def written : Stage → List LogRecord
  | .logging report n => report.log.take n
  | .finished (some report) => report.log
  | _ => []

end Stage

/-! ## Batches -/

/-- How many tasks may be underway at a time. -/
def maxUnderway : Nat :=
  8

/-- The tasks of files, and what they share. -/
structure Batch where
  tasks : List (Text × Stage)
  shared : Shared := {}

/-- How a batch ends: with an output, with the error that some task gave up, or without a report
that should be there. -/
inductive Ending where
  | output (o : Output)
  | cancelled
  | reportMissing

namespace Batch

/-- Tasks that wait to be started. -/
def waitingTasks (names : List Text) : List (Text × Stage) :=
  names.map fun name => (name, .waiting)

/-- The tasks of files before any of them is started. -/
def ofNames (names : List Text) : Batch :=
  { tasks := waitingTasks names }

/-- One step of a batch: the first task that waits is started, if not too many are underway, or some
task goes on. -/
inductive Step (limits : Limits) (read : Text → Except FileProblem Text) : Batch → Batch → Prop
  | start {name : Text} {before after : List (Text × Stage)} {s : Shared} :
      (∀ t ∈ before, t.2.isWaiting = false) →
      (before ++ (name, .waiting) :: after).countP (fun t => t.2.isUnderway) < maxUnderway →
      Step limits read ⟨before ++ (name, .waiting) :: after, s⟩
        ⟨before ++ (name, .started) :: after, s⟩
  | move {name : Text} {st st' : Stage} {before after : List (Text × Stage)} {s s' : Shared} :
      st.Step limits read name s st' s' →
      Step limits read ⟨before ++ (name, st) :: after, s⟩ ⟨before ++ (name, st') :: after, s'⟩

/-- A batch can come about from the tasks of files. -/
def Reachable (limits : Limits) (read : Text → Except FileProblem Text) (names : List Text)
    (b : Batch) : Prop :=
  Relation.ReflTransGen (Step limits read) (ofNames names) b

/-- All tasks have ended. -/
def Finished (b : Batch) : Prop :=
  ∀ t ∈ b.tasks, t.2.isFinished = true

/-- What is made of a batch whose tasks have ended: the first error, or else the reports in the
order of the files. -/
def ending (threshold : LogLevel) (b : Batch) : Ending :=
  let logged := printLog threshold b.shared.log
  match b.shared.error with
  | some (.unreadable name problem) =>
    .output { stderr := logged, failure := some (.unreadable name problem) }
  | some .cancelled => .cancelled
  | none =>
    match b.tasks.mapM fun t => t.2.report? with
    | some reports => .output ((reportFiles reports).behind logged)
    | none => .reportMissing

end Batch

/-! ## What every step keeps -/

/-- The report on a file; an empty one if it cannot be read. -/
def reportOn (limits : Limits) (read : Text → Except FileProblem Text) (name : Text) : FileReport :=
  match read name with
  | .ok source => .ofSource limits name source
  | .error _ => { name }

variable {limits : Limits} {read : Text → Except FileProblem Text} {name : Text}
  {names : List Text} {st st' : Stage} {s s' : Shared} {b b' : Batch}

theorem reportOn_of_ok {source : Text} (h : read name = .ok source) :
    reportOn limits read name = .ofSource limits name source := by
  rw [reportOn, h]

/-- If nothing else is the case then a task is where it should be: reports are on files that can be
read, and a task has to give up, or has ended without a report, only if there is an error. -/
def Stage.Sound (limits : Limits) (read : Text → Except FileProblem Text) (error : Option TaskError)
    (name : Text) : Stage → Prop
  | .waiting | .started | .allowed => True
  | .logging report _ | .finished (some report) =>
    (∃ source, read name = .ok source) ∧ report = reportOn limits read name
  | .failing (.unreadable name' problem) => name' = name ∧ read name = .error problem
  | .failing .cancelled | .recorded | .finished none => error.isSome = true

/-- The error is about a file that cannot be read, and nobody has to give up unless there is one. -/
structure Shared.Sound (read : Text → Except FileProblem Text) (names : List Text) (s : Shared) :
    Prop where
  cancelled : s.cancelled = true → s.error.isSome = true
  error : ∀ e, s.error = some e →
    ∃ name ∈ names, ∃ problem, read name = .error problem ∧ e = .unreadable name problem

/-- Where a task is stays sound as long as an error that is there does not go away. -/
theorem Stage.Sound.mono {error error' : Option TaskError} (h : st.Sound limits read error name)
    (herror : error.isSome = true → error'.isSome = true) : st.Sound limits read error' name := by
  rcases st with _ | _ | _ | _ | (_ | _) | _ | (_ | _)
  case failing.cancelled | recorded | finished.none => exact herror h
  all_goals exact h

namespace Stage.Step

/-- A step leaves a task and what is shared sound. To record that a task gave up, there would have
to be an error already. -/
theorem sound (h : st.Step limits read name s st' s') (hname : name ∈ names)
    (hs : s.Sound read names) (hst : st.Sound limits read s.error name) :
    s'.Sound read names ∧ st'.Sound limits read s'.error name ∧
      (s.error.isSome = true → s'.error.isSome = true) := by
  cases h with
  | allow hno => exact ⟨hs, trivial, id⟩
  | giveUp hyes => exact ⟨hs, hs.cancelled hyes, id⟩
  | unreadable hread => exact ⟨hs, ⟨rfl, hread⟩, id⟩
  | evaluate hread => exact ⟨hs, ⟨⟨_, hread⟩, (reportOn_of_ok hread).symm⟩, id⟩
  | write hr => exact ⟨⟨hs.cancelled, hs.error⟩, hst, id⟩
  | store hall => exact ⟨hs, hst, id⟩
  | @record _ e hnone =>
    refine ⟨⟨fun _ => rfl, ?_⟩, rfl, fun _ => rfl⟩
    rintro _ ⟨⟩
    cases e with
    | cancelled =>
      rw [Stage.Sound, hnone] at hst
      cases hst
    | unreadable name' problem =>
      obtain ⟨rfl, hread⟩ := hst
      exact ⟨name', hname, problem, hread, rfl⟩
  | late hsome => exact ⟨hs, by rw [Stage.Sound, hsome]; rfl, id⟩
  | cancel => exact ⟨⟨fun _ => hst, hs.error⟩, hst, id⟩

/-- What a step adds to the log is what the task has written more. -/
theorem written (h : st.Step limits read name s st' s') :
    ∃ more, s'.log = s.log ++ more ∧ st'.written = st.written ++ more := by
  cases h with
  | @write _ report n r hr =>
    refine ⟨[r], rfl, ?_⟩
    rw [Stage.written, Stage.written, List.take_add_one, hr]
    rfl
  | store hall =>
    refine ⟨[], (List.append_nil _).symm, ?_⟩
    rw [Stage.written, Stage.written, List.take_of_length_le hall, List.append_nil]
  | _ => exact ⟨[], (List.append_nil _).symm, rfl⟩

end Stage.Step

/-- What holds of a batch whatever has happened: its tasks are those of the files, they and what
they share are sound, and the log is what they have written. -/
structure Batch.Sound (limits : Limits) (read : Text → Except FileProblem Text) (names : List Text)
    (b : Batch) : Prop where
  order : b.tasks.map Prod.fst = names
  shared : b.shared.Sound read names
  tasks : ∀ t ∈ b.tasks, t.2.Sound limits read b.shared.error t.1
  log : b.shared.log.Perm (b.tasks.flatMap fun t => t.2.written)

/-- A batch that nobody has begun is sound. -/
theorem Batch.sound_ofNames : (ofNames names).Sound limits read names where
  order := by simp [ofNames, waitingTasks, Function.comp_def]
  shared := ⟨nofun, nofun⟩
  tasks t ht := by
    obtain ⟨name, -, rfl⟩ := List.mem_map.mp ht
    trivial
  log := by simp [ofNames, waitingTasks, Stage.written]

/-- Every step of any worker keeps a batch sound. -/
theorem Batch.Step.sound (h : b.Step limits read b') (hb : b.Sound limits read names) :
    b'.Sound limits read names := by
  cases h with
  | @start name before after s hbefore hroom =>
    refine ⟨?_, hb.shared, ?_, ?_⟩
    · rw [← hb.order]
      simp
    · intro t ht
      rcases List.mem_append.mp ht with ht | ht
      · exact hb.tasks t (List.mem_append_left _ ht)
      · rcases List.mem_cons.mp ht with rfl | ht
        · trivial
        · exact hb.tasks t (List.mem_append_right _ (List.mem_cons_of_mem _ ht))
    · simpa [Stage.written] using hb.log
  | @move name st st' before after s s' hstep =>
    have hmem : (name, st) ∈ before ++ (name, st) :: after :=
      List.mem_append_right _ List.mem_cons_self
    have hname : name ∈ names := hb.order ▸ List.mem_map_of_mem hmem
    obtain ⟨hs, hst, herror⟩ := hstep.sound hname hb.shared (hb.tasks _ hmem)
    refine ⟨?_, hs, ?_, ?_⟩
    · rw [← hb.order]
      simp
    · intro t ht
      rcases List.mem_append.mp ht with ht | ht
      · exact (hb.tasks t (List.mem_append_left _ ht)).mono herror
      · rcases List.mem_cons.mp ht with rfl | ht
        · exact hst
        · exact (hb.tasks t (List.mem_append_right _ (List.mem_cons_of_mem _ ht))).mono herror
    · obtain ⟨more, hlog, hwritten⟩ := hstep.written
      have hbefore := hb.log
      rw [List.flatMap_append, List.flatMap_cons] at hbefore ⊢
      rw [hlog, hwritten, List.append_assoc]
      -- the new records go to the end of the log, and behind those of the same task
      refine (hbefore.append_right more).trans ?_
      rw [List.append_assoc, List.append_assoc]
      exact (List.perm_append_comm.append_left _).append_left _

/-- Whatever happens to the tasks of files, they stay sound. -/
theorem Batch.Reachable.sound (h : b.Reachable limits read names) : b.Sound limits read names := by
  induction h with
  | refl => exact sound_ofNames
  | tail _ hstep ih => exact hstep.sound ih

/-! ## Every batch ends -/

/-- How many more steps a task may take. -/
def Stage.work (limits : Limits) (read : Text → Except FileProblem Text) (name : Text) : Stage → Nat
  | .waiting => (reportOn limits read name).log.length + 5
  | .started => (reportOn limits read name).log.length + 4
  | .allowed => (reportOn limits read name).log.length + 3
  | .logging report n => report.log.length - n + 1
  | .failing _ => 2
  | .recorded => 1
  | .finished _ => 0

/-- How many more steps tasks may take. -/
def tasksWork (limits : Limits) (read : Text → Except FileProblem Text) :
    List (Text × Stage) → Nat
  | [] => 0
  | (name, st) :: rest => st.work limits read name + tasksWork limits read rest

/-- How many more steps a batch may take. -/
def Batch.work (limits : Limits) (read : Text → Except FileProblem Text) (b : Batch) : Nat :=
  tasksWork limits read b.tasks

theorem tasksWork_append (ts ts' : List (Text × Stage)) :
    tasksWork limits read (ts ++ ts') = tasksWork limits read ts + tasksWork limits read ts' := by
  induction ts with
  | nil => exact (Nat.zero_add _).symm
  | cons t rest ih =>
    rw [List.cons_append, tasksWork, tasksWork, ih]
    omega

/-- A worker that takes a step has less to do. -/
theorem Stage.Step.work_lt (h : st.Step limits read name s st' s') :
    st'.work limits read name < st.work limits read name := by
  cases h with
  | evaluate hread =>
    rw [Stage.work, Stage.work, reportOn_of_ok hread]
    omega
  | write hr =>
    obtain ⟨hlt, -⟩ := List.getElem?_eq_some_iff.mp hr
    rw [Stage.work, Stage.work]
    omega
  | _ =>
    simp only [Stage.work]
    omega

/-- A batch in which some worker takes a step has less to do, so no schedule goes on forever. -/
theorem Batch.Step.work_lt (h : b.Step limits read b') :
    b'.work limits read < b.work limits read := by
  have hlift {name : Text} {st st' : Stage} (before after : List (Text × Stage)) {s s' : Shared}
      (h : st'.work limits read name < st.work limits read name) :
      (⟨before ++ (name, st') :: after, s'⟩ : Batch).work limits read
        < (⟨before ++ (name, st) :: after, s⟩ : Batch).work limits read := by
    rw [Batch.work, Batch.work, tasksWork_append, tasksWork_append, tasksWork, tasksWork]
    omega
  cases h with
  | start hbefore hroom => exact hlift _ _ (Nat.lt_succ_self _)
  | move hstep => exact hlift _ _ hstep.work_lt

/-- A task that is underway can go on, whatever the others do. -/
theorem Stage.exists_step (limits : Limits) (read : Text → Except FileProblem Text) (name : Text)
    (s : Shared) (h : st.isUnderway = true) : ∃ st' s', st.Step limits read name s st' s' := by
  cases st with
  | waiting => cases h
  | started =>
    cases hcancelled : s.cancelled with
    | false => exact ⟨_, _, .allow hcancelled⟩
    | true => exact ⟨_, _, .giveUp hcancelled⟩
  | allowed =>
    cases hread : read name with
    | error problem => exact ⟨_, _, .unreadable hread⟩
    | ok source => exact ⟨_, _, .evaluate hread⟩
  | logging report n =>
    by_cases hall : report.log.length ≤ n
    · exact ⟨_, _, .store hall⟩
    · exact ⟨_, _, .write (List.getElem?_eq_getElem (Nat.not_le.mp hall))⟩
  | failing e =>
    cases herror : s.error with
    | none => exact ⟨_, _, .record herror⟩
    | some e' => exact ⟨_, _, .late herror⟩
  | recorded => exact ⟨_, _, .cancel⟩
  | finished report => cases h

/-- A batch can go on until all its tasks have ended. If none is underway, one can be started. -/
theorem Batch.finished_or_exists_step (b : Batch) :
    b.Finished ∨ ∃ b', b.Step limits read b' := by
  obtain ⟨tasks, s⟩ := b
  by_cases hunderway : ∃ t ∈ tasks, t.2.isUnderway = true
  · obtain ⟨⟨name, st⟩, hmem, hst⟩ := hunderway
    obtain ⟨before, after, rfl⟩ := List.append_of_mem hmem
    obtain ⟨st', s', hstep⟩ := Stage.exists_step limits read name s hst
    exact .inr ⟨_, .move hstep⟩
  · cases hwaiting : tasks.find? fun t => t.2.isWaiting with
    | none =>
      refine .inl fun t ht => ?_
      rcases t.2.waiting_or_underway_or_finished with hst | hst | hst
      · exact absurd hst (List.find?_eq_none.mp hwaiting t ht)
      · exact absurd ⟨t, ht, hst⟩ hunderway
      · exact hst
    | some t =>
      obtain ⟨hst, before, after, rfl, hbefore⟩ := List.find?_eq_some_iff_append.mp hwaiting
      obtain ⟨name, st⟩ := t
      cases Stage.eq_waiting hst
      have hnone : (before ++ (name, .waiting) :: after).countP (fun t => t.2.isUnderway) = 0 :=
        List.countP_eq_zero.mpr fun t ht hst => hunderway ⟨t, ht, hst⟩
      refine .inr ⟨_, .start (fun t ht => ?_) (by rw [hnone]; exact Nat.zero_lt_succ 7)⟩
      exact Bool.eq_false_iff.mpr (by simpa using hbefore t ht)

/-! ## How batches end -/

/-- If there is no error, a task that has ended has left the report on its file. -/
theorem Stage.eq_finished (hst : st.Sound limits read none name)
    (hfinished : st.isFinished = true) :
    st = .finished (some (reportOn limits read name)) ∧ ∃ source, read name = .ok source := by
  rcases st with _ | _ | _ | _ | _ | _ | (_ | report)
  case finished.some =>
    obtain ⟨hreadable, rfl⟩ := hst
    exact ⟨rfl, hreadable⟩
  case finished.none => cases hst
  all_goals cases hfinished

/-- If there is no error, all tasks that have ended have left the reports on their files, and what
these say is in the log. -/
theorem Batch.Sound.reports (hb : b.Sound limits read names) (hfinished : b.Finished)
    (herror : b.shared.error = none) :
    (∀ name ∈ names, ∃ source, read name = .ok source) ∧
      b.tasks.mapM (fun t => t.2.report?) = some (names.map (reportOn limits read)) ∧
      b.shared.log.Perm ((names.map (reportOn limits read)).flatMap FileReport.log) := by
  -- without an error no worker gave up, so each one finished with its report
  have hstages : ∀ t ∈ b.tasks, t.2 = .finished (some (reportOn limits read t.1)) ∧
      ∃ source, read t.1 = .ok source :=
    fun t ht => Stage.eq_finished (herror ▸ hb.tasks t ht) (hfinished t ht)
  have hlog := hb.log
  rw [← hb.order]
  generalize b.tasks = tasks at hstages hlog ⊢
  refine ⟨fun name hname => ?_, ?_, ?_⟩
  · obtain ⟨t, ht, rfl⟩ := List.mem_map.mp hname
    exact (hstages t ht).2
  · clear hlog
    induction tasks with
    | nil => rfl
    | cons t rest ih =>
      rw [List.mapM_cons, (hstages t List.mem_cons_self).1,
        ih fun t' ht' => hstages t' (List.mem_cons_of_mem _ ht')]
      rfl
  · have hwritten : tasks.flatMap (fun t => t.2.written)
        = ((tasks.map Prod.fst).map (reportOn limits read)).flatMap FileReport.log := by
      rw [List.flatMap_def, List.flatMap_def, List.map_map, List.map_map]
      refine congrArg List.flatten (List.map_congr_left fun t ht => ?_)
      rw [(hstages t ht).1]
      rfl
    exact hwritten ▸ hlog

/-- If all files can be read then there is no error. -/
theorem Batch.Sound.error_eq_none (hb : b.Sound limits read names)
    (hreadable : ∀ name ∈ names, ∃ source, read name = .ok source) : b.shared.error = none := by
  cases herror : b.shared.error with
  | none => rfl
  | some e =>
    obtain ⟨name, hname, problem, hproblem, -⟩ := hb.shared.error e herror
    obtain ⟨source, hsource⟩ := hreadable name hname
    rw [hproblem] at hsource
    cases hsource

/-- If all files can be read, evaluating them in order reports on each. -/
theorem evaluateFiles_of_readable
    (hreadable : ∀ name ∈ names, ∃ source, read name = .ok source) :
    evaluateFiles limits read names = ((names.map (reportOn limits read)).flatMap FileReport.log,
      .ok (names.map (reportOn limits read))) := by
  induction names with
  | nil => rfl
  | cons name rest ih =>
    obtain ⟨source, hsource⟩ := hreadable name List.mem_cons_self
    rw [evaluateFiles, hsource, ih fun n hn => hreadable n (List.mem_cons_of_mem _ hn),
      List.map_cons, reportOn_of_ok hsource]
    rfl

/-- Whether a source fails: there are problems with it, or its value is an error. -/
def sourceFails (limits : Limits) (source : Text) : Bool :=
  !(parse source).problems.isEmpty ||
    match (Session.evaluate { limits } (.program (parse source).program)).1 with
    | .value v => v.isError
    | .crashed _ | .exhausted => false

/-- Whether a file can be read and its source fails. -/
def fileFails (limits : Limits) (read : Text → Except FileProblem Text) (name : Text) : Bool :=
  match read name with
  | .ok source => sourceFails limits source
  | .error _ => false

/-- A report says that a file failed exactly if its source does. -/
theorem failed_ofSource (limits : Limits) (name source : Text) :
    (FileReport.ofSource limits name source).failed = sourceFails limits source := by
  unfold FileReport.ofSource sourceFails
  cases hproblems : (parse source).problems with
  | cons problem rest => simp [FileReport.failed, Parsed.errors, hproblems]
  | nil =>
    simp only [FileReport.failed, hproblems, List.isEmpty_nil, if_true]
    cases (Session.evaluate { limits } (.program (parse source).program)).1 <;> rfl

theorem failed_reportOn (name : Text) :
    (reportOn limits read name).failed = fileFails limits read name := by
  unfold reportOn fileFails
  cases read name with
  | error problem => rfl
  | ok source => exact failed_ofSource limits name source

/-! ## One task after the other -/

section InOrder

open Batch

variable {before : List (Text × Stage)}

/-- One batch becomes another. -/
abbrev Leads (limits : Limits) (read : Text → Except FileProblem Text) : Batch → Batch → Prop :=
  Relation.ReflTransGen (Batch.Step limits read)

theorem finished_concat (hbefore : ∀ t ∈ before, t.2.isFinished = true) (name : Text)
    (report : Option FileReport) :
    ∀ t ∈ before ++ [(name, Stage.finished report)], t.2.isFinished = true := by
  intro t ht
  rcases List.mem_append.mp ht with ht | ht
  · exact hbefore t ht
  · rw [List.mem_singleton.mp ht]
    rfl

/-- If all that were started have ended, the next one can be started. -/
theorem start_next (limits : Limits) (read : Text → Except FileProblem Text)
    (hbefore : ∀ t ∈ before, t.2.isFinished = true) (name : Text) (rest : List Text) (s : Shared) :
    Batch.Step limits read ⟨before ++ waitingTasks (name :: rest), s⟩
      ⟨before ++ (name, .started) :: waitingTasks rest, s⟩ := by
  refine .start (fun t ht => Stage.not_waiting (hbefore t ht)) ?_
  have hnone : (before ++ waitingTasks (name :: rest)).countP (fun t => t.2.isUnderway) = 0 := by
    refine List.countP_eq_zero.mpr fun t ht => ?_
    rcases List.mem_append.mp ht with ht | ht
    · simp [Stage.isUnderway, hbefore t ht]
    · obtain ⟨n, -, rfl⟩ := List.mem_map.mp ht
      simp [Stage.isUnderway, Stage.isWaiting]
  exact hnone ▸ Nat.zero_lt_succ 7

/-- A task that has written some of its records writes the others and ends. -/
theorem write_rest (name : Text) (after : List (Text × Stage)) (report : FileReport) (n : Nat)
    (s : Shared) :
    Leads limits read ⟨before ++ (name, .logging report n) :: after, s⟩
      ⟨before ++ (name, .finished (some report)) :: after,
        { s with log := s.log ++ report.log.drop n }⟩ := by
  induction hleft : report.log.length - n generalizing n s with
  | zero =>
    have hall : report.log.length ≤ n := Nat.le_of_sub_eq_zero hleft
    rw [List.drop_of_length_le hall, List.append_nil]
    exact .single (.move (.store hall))
  | succ left ih =>
    have hn : n < report.log.length := by omega
    have hrest := ih (n + 1) { s with log := s.log ++ [report.log[n]] } (by omega)
    rw [List.append_assoc, List.singleton_append, ← List.drop_eq_getElem_cons hn] at hrest
    exact .head (.move (.write (List.getElem?_eq_getElem hn))) hrest

/-- Once there is an error and the others are told to give up, all tasks that still wait do so. -/
theorem give_up_all (limits : Limits) (read : Text → Except FileProblem Text)
    (hbefore : ∀ t ∈ before, t.2.isFinished = true) (names : List Text)
    (hcancelled : s.cancelled = true) {e : TaskError} (herror : s.error = some e) :
    ∃ tasks, Leads limits read ⟨before ++ waitingTasks names, s⟩ ⟨tasks, s⟩ ∧
      ∀ t ∈ tasks, t.2.isFinished = true := by
  induction names generalizing before with
  | nil => exact ⟨_, .refl, by simpa [waitingTasks] using hbefore⟩
  | cons name rest ih =>
    obtain ⟨tasks, hleads, hfinished⟩ := ih (finished_concat hbefore name none)
    rw [List.append_assoc, List.singleton_append] at hleads
    refine ⟨tasks, ?_, hfinished⟩
    exact .head (start_next limits read hbefore name rest s)
      (.head (.move (.giveUp hcancelled)) (.head (.move (.late herror)) hleads))

/-- From tasks that have ended and others that wait, started one after the other, the batch comes to
an end with the log and the error of the files evaluated one after the other. -/
theorem exists_in_order (limits : Limits) (read : Text → Except FileProblem Text)
    (hbefore : ∀ t ∈ before, t.2.isFinished = true) (names : List Text)
    (hcancelled : s.cancelled = false) (herror : s.error = none) :
    ∃ b, Leads limits read ⟨before ++ waitingTasks names, s⟩ b ∧ b.Finished ∧
      b.shared.log = s.log ++ (evaluateFiles limits read names).1 ∧
      ((∃ reports, (evaluateFiles limits read names).2 = .ok reports) ∧ b.shared.error = none ∨
        ∃ name problem, (evaluateFiles limits read names).2 = .error (.unreadable name problem) ∧
          b.shared.error = some (.unreadable name problem)) := by
  induction names generalizing before s with
  | nil =>
    refine ⟨_, .refl, fun t ht => hbefore t ?_, (List.append_nil _).symm, .inl ⟨⟨[], rfl⟩, herror⟩⟩
    simpa [waitingTasks] using ht
  | cons name rest ih =>
    have hstart := start_next limits read hbefore name rest s
    cases hread : read name with
    | error problem =>
      -- the first file that cannot be read is recorded, and the workers that wait give up
      let s' : Shared := { s with error := some (.unreadable name problem), cancelled := true }
      obtain ⟨tasks, hleads, hfinished⟩ := give_up_all limits read (s := s')
        (finished_concat hbefore name none) rest rfl rfl
      rw [List.append_assoc, List.singleton_append] at hleads
      have hfailed : Leads limits read ⟨before ++ waitingTasks (name :: rest), s⟩ ⟨tasks, s'⟩ :=
        .head hstart (.head (.move (.allow hcancelled)) (.head (.move (.unreadable hread))
          (.head (.move (.record herror)) (.head (.move .cancel) hleads))))
      refine ⟨_, hfailed, hfinished, ?_, .inr ⟨name, problem, ?_, rfl⟩⟩
      · rw [evaluateFiles, hread]
        exact (List.append_nil _).symm
      · rw [evaluateFiles, hread]
    | ok source =>
      -- a file that can be read is finished before the next worker starts
      let report := FileReport.ofSource limits name source
      let s' : Shared := { s with log := s.log ++ report.log }
      obtain ⟨b, hleads, hfinished, hlog, hend⟩ := ih (s := s')
        (finished_concat hbefore name (some report)) hcancelled herror
      rw [List.append_assoc, List.singleton_append] at hleads
      have hevaluated : Leads limits read ⟨before ++ waitingTasks (name :: rest), s⟩ b :=
        .head hstart (.head (.move (.allow hcancelled)) (.head (.move (.evaluate hread))
          ((write_rest name (waitingTasks rest) report 0 s).trans hleads)))
      refine ⟨b, hevaluated, hfinished, ?_, ?_⟩
      · rw [hlog, evaluateFiles, hread]
        exact List.append_assoc _ _ _
      · rw [evaluateFiles, hread]
        rcases hend with ⟨⟨reports, hreports⟩, herror'⟩ | ⟨name', problem, hproblem, herror'⟩
        · exact .inl ⟨⟨report :: reports, congrArg (Except.map _) hreports⟩, herror'⟩
        · exact .inr ⟨name', problem, congrArg (Except.map _) hproblem, herror'⟩

end InOrder

/-! ## Outputs -/

/-- What is reported about files that can be read. -/
def complaintsOn (limits : Limits) (read : Text → Except FileProblem Text) (names : List Text) :
    Text :=
  names.flatMap fun name => (reportOn limits read name).complaint

/-- What is complained about comes file by file, in the order of the names. -/
theorem stderr_reportFiles :
    (reportFiles (names.map (reportOn limits read))).stderr = complaintsOn limits read names :=
  List.flatMap_map _ _ _

/-- Files fail as many as there are sources that fail. -/
theorem failure_reportFiles :
    (reportFiles (names.map (reportOn limits read))).failure =
      if names.countP (fileFails limits read) = 0 then none
      else some (.filesFailed (names.countP (fileFails limits read)) names.length) := by
  have hcount : (names.map (reportOn limits read)).countP FileReport.failed
      = names.countP (fileFails limits read) := by
    rw [List.countP_map]
    exact List.countP_congr fun name _ => by rw [Function.comp_apply, failed_reportOn]
  show (if (names.map (reportOn limits read)).countP FileReport.failed = 0 then none
    else some (Failure.filesFailed _ (names.map (reportOn limits read)).length)) = _
  rw [hcount, List.length_map]

theorem runFiles_of_readable (threshold : LogLevel) (hnames : names ≠ [])
    (hreadable : ∀ name ∈ names, ∃ source, read name = .ok source) :
    runFiles threshold limits read names = (reportFiles (names.map (reportOn limits read))).behind
      (printLog threshold ((names.map (reportOn limits read)).flatMap FileReport.log)) := by
  rw [runFiles, if_neg (by simpa using hnames), evaluateFiles_of_readable hreadable]

/-- A batch that finished without an error ends as evaluating the files in order does, whatever the
schedule was. -/
theorem Batch.Sound.ending_of_readable (threshold : LogLevel) (hb : b.Sound limits read names)
    (hfinished : b.Finished) (herror : b.shared.error = none) :
    b.ending threshold = .output ((reportFiles (names.map (reportOn limits read))).behind
      (printLog threshold b.shared.log)) := by
  rw [ending, herror, (hb.reports hfinished herror).2.1]

/-- If a file cannot be read, the batch ends with the error of such a file. A task that gave up does
not come first. -/
theorem Batch.Sound.ending_of_unreadable (threshold : LogLevel) (hb : b.Sound limits read names)
    (hfinished : b.Finished) (hname : name ∈ names) {problem : FileProblem}
    (hproblem : read name = .error problem) :
    ∃ name' ∈ names, ∃ problem', read name' = .error problem' ∧
      b.ending threshold = .output { stderr := printLog threshold b.shared.log
                                     failure := some (.unreadable name' problem') } := by
  cases herror : b.shared.error with
  | none =>
    obtain ⟨source, hsource⟩ := (hb.reports hfinished herror).1 name hname
    rw [hproblem] at hsource
    cases hsource
  | some e =>
    obtain ⟨name', hname', problem', hproblem', rfl⟩ := hb.shared.error e herror
    refine ⟨name', hname', problem', hproblem', ?_⟩
    rw [ending, herror]

/-- To run files one after the other is one of the ways that a batch can go. -/
theorem exists_ending_eq_runFiles (threshold : LogLevel) (limits : Limits)
    (read : Text → Except FileProblem Text) (hnames : names ≠ []) :
    ∃ b : Batch, b.Reachable limits read names ∧ b.Finished ∧
      b.ending threshold = .output (runFiles threshold limits read names) := by
  have hnone : ∀ t ∈ ([] : List (Text × Stage)), t.2.isFinished = true :=
    fun t ht => absurd ht List.not_mem_nil
  obtain ⟨b, hleads, hfinished, hlog, hend⟩ :=
    exists_in_order limits read (s := {}) hnone names rfl rfl
  refine ⟨b, hleads, hfinished, ?_⟩
  have hb : b.Sound limits read names := Batch.Reachable.sound hleads
  rcases hend with ⟨-, herror⟩ | ⟨name, problem, hproblem, herror⟩
  · have hreadable := (hb.reports hfinished herror).1
    rw [hb.ending_of_readable threshold hfinished herror, hlog,
      runFiles_of_readable threshold hnames hreadable, evaluateFiles_of_readable hreadable]
    rfl
  · rcases hfiles : evaluateFiles limits read names with ⟨log, reports⟩
    rw [hfiles] at hlog hproblem
    subst hproblem
    rw [Batch.ending, herror, hlog, runFiles, if_neg (by simpa using hnames), hfiles]
    rfl

/-- **Files in any order.** Let files be evaluated at the same time, with only a few tasks underway.
However the tasks take turns, they all end after finitely many steps, and to run the files one after
the other is one of the ways. If all files can be read, then the output is that of running them one
after the other, but for the order of the records in the log; it is a failure if there are files
that fail, and tells how many. If some file cannot be read, then there are only records of the log,
and the failure is that one such file cannot be read, not that a task gave up. -/
theorem every_schedule_agrees (threshold : LogLevel) (limits : Limits)
    (read : Text → Except FileProblem Text) (names : List Text) (hnames : names ≠ []) :
    (∀ b : Batch, b.Reachable limits read names → (b.Finished ∨ ∃ b', b.Step limits read b') ∧
      ∀ b', b.Step limits read b' → b'.work limits read < b.work limits read) ∧
    (∃ b : Batch, b.Reachable limits read names ∧ b.Finished ∧
      b.ending threshold = .output (runFiles threshold limits read names)) ∧
    ∀ b : Batch, b.Reachable limits read names → b.Finished →
      ((∀ name ∈ names, ∃ source, read name = .ok source) →
        (∃ log : List LogRecord, log.Perm b.shared.log ∧
          (runFiles threshold limits read names).stderr
            = printLog threshold log ++ complaintsOn limits read names) ∧
        (runFiles threshold limits read names).failure =
          (if names.countP (fileFails limits read) = 0 then none
          else some (.filesFailed (names.countP (fileFails limits read)) names.length)) ∧
        (∀ failed total, (Failure.filesFailed failed total).message
          = Text.ofNat failed ++ text " of " ++ Text.ofNat total ++ text " file(s) failed") ∧
        b.ending threshold = .output { runFiles threshold limits read names with
          stderr := printLog threshold b.shared.log ++ complaintsOn limits read names }) ∧
      ∀ name ∈ names, ∀ problem, read name = .error problem →
        ∃ name' ∈ names, ∃ problem', read name' = .error problem' ∧
          b.ending threshold = .output { stderr := printLog threshold b.shared.log
                                         failure := some (.unreadable name' problem') } := by
  refine ⟨fun b _ => ⟨b.finished_or_exists_step, fun _ h => h.work_lt⟩,
    exists_ending_eq_runFiles threshold limits read hnames, fun b hreach hfinished => ?_⟩
  -- all that is said of a finished batch follows from its invariant
  have hb := hreach.sound
  refine ⟨fun hreadable => ?_, fun name hname problem hproblem =>
    hb.ending_of_unreadable threshold hfinished hname hproblem⟩
  have herror := hb.error_eq_none hreadable
  rw [runFiles_of_readable threshold hnames hreadable,
    hb.ending_of_readable threshold hfinished herror]
  refine ⟨⟨_, (hb.reports hfinished herror).2.2.symm, ?_⟩, failure_reportFiles, fun _ _ => rfl, ?_⟩
  · exact congrArg (printLog threshold _ ++ ·) stderr_reportFiles
  · rw [← stderr_reportFiles]
    rfl

/-- A file that prints, one that is missing and one whose source is wrong: the batch can end, and
then there is only the log, and the failure is that of the missing file. -/
theorem every_schedule_agrees_missing :
    let names := [text "prints", text "missing", text "wrong"]
    let read : Text → Except FileProblem Text := fun name =>
      if name = text "prints" then .ok (text "puts(1)")
      else if name = text "wrong" then .ok (text "let = ") else .error .missing
    names ≠ [] ∧ (∃ b : Batch, b.Reachable {} read names ∧ b.Finished) ∧
    ∀ b : Batch, b.Reachable {} read names → b.Finished →
      b.ending .debug = .output { stderr := printLog .debug b.shared.log
                                  failure := some (.unreadable (text "missing") .missing) } := by
  intro names read
  have hnames : names ≠ [] := List.cons_ne_nil _ _
  obtain ⟨-, ⟨b, hreach, hfinished, -⟩, hall⟩ := every_schedule_agrees .debug {} read names hnames
  refine ⟨hnames, ⟨b, hreach, hfinished⟩, fun b hreach hfinished => ?_⟩
  obtain ⟨name, hname, problem, hproblem, hending⟩ :=
    (hall b hreach hfinished).2 (text "missing") (by decide) .missing rfl
  -- the other two can be read
  rcases List.mem_cons.mp hname with rfl | hname
  · cases hproblem
  · rcases List.mem_cons.mp hname with rfl | hname
    · cases hproblem
      exact hending
    · rw [List.mem_singleton.mp hname] at hproblem
      cases hproblem

end Monkey
