import Mathlib.Data.List.Basic
import Monkey.Proofs.Brackets

/-!
# How lines are gathered

Lines that are typed are gathered until their braces balance, and are then evaluated as one source.
Nothing is said in the loop itself about which lines were gathered: it has one text that is pending.
The text is at every moment the lines since the last source, each with its newline, and as long as
it is pending, none of the runs of its first lines balances (`Incomplete`). One line then does one
of three things (`feed_cases`): it asks to leave, which it can only while nothing is pending; it is
pending with the others; or it completes a group (`Complete`).

So the sources are the groups of lines, in order, that follow one another from the first line on,
and what is left at the end is a group that is not complete, or begins with the line that asked to
leave.
-/

namespace Monkey

/-- A line asks to leave. -/
def AsksToLeave (line : Text) : Prop :=
  line.trim = text "exit"

/-- Lines are not to be evaluated yet: there are more opening braces than closing ones in all of
them, and in every run of the first of them. -/
def Incomplete (lines : List Text) : Prop :=
  ∀ first, first <+: lines → first ≠ [] → 0 < braceBalance (Text.unlines first)

/-- Lines are to be evaluated together: their braces balance, or more are closed than are open, and
this is so of no shorter run of the first of them. -/
structure Complete (group : List Text) : Prop where
  ne_nil : group ≠ []
  balanced : braceBalance (Text.unlines group) ≤ 0
  shortest (first : List Text) : first <+: group → first ≠ [] → first ≠ group →
    0 < braceBalance (Text.unlines first)

/-- How typed lines are taken: in groups that are complete, none of which begins with a line that
asks to leave, and then the rest with what happens last. Either the rest begins with a line that
asks to leave, or the input ends and the rest is not complete. -/
structure Taken (lines : List Text) (groups : List (List Text)) (rest : List Text) (last : Event) :
    Prop where
  lines_eq : lines = groups.flatten ++ rest
  complete : ∀ group ∈ groups, Complete group
  stays : ∀ group ∈ groups, ∀ line ∈ group.head?, ¬ AsksToLeave line
  ends : (last = .leave ∧ ∃ line ∈ rest.head?, AsksToLeave line) ∨
    (last = .close ∧ Incomplete rest ∧ ∀ line ∈ rest.head?, ¬ AsksToLeave line)

/-! ## One line -/

theorem unlines_concat (lines : List Text) (line : Text) :
    Text.unlines (lines ++ [line]) = Text.unlines lines ++ line ++ text "\n" := by
  rw [Text.unlines, List.flatMap_append, List.flatMap_singleton, List.append_assoc]
  rfl

theorem isEmpty_unlines (lines : List Text) :
    (Text.unlines lines).isEmpty = true ↔ lines = [] := by
  cases lines with
  | nil => exact ⟨fun _ => rfl, fun _ => rfl⟩
  | cons line rest =>
      refine ⟨fun h => ?_, nofun⟩
      have hnil : line ++ text "\n" ++ Text.unlines rest = [] := List.isEmpty_iff.mp h
      have hnewline := (List.append_eq_nil_iff.mp (List.append_eq_nil_iff.mp hnil).1).2
      cases hnewline

theorem incomplete_nil : Incomplete [] := by
  intro first hfirst hne
  exact absurd (List.prefix_nil.mp hfirst) hne

theorem Incomplete.concat {lines : List Text} (h : Incomplete lines) {line : Text}
    (hopen : 0 < braceBalance (Text.unlines (lines ++ [line]))) : Incomplete (lines ++ [line]) := by
  intro first hfirst hne
  rcases List.prefix_concat_iff.mp hfirst with rfl | hfirst
  · exact hopen
  · exact h first hfirst hne

theorem Incomplete.complete_concat {lines : List Text} (h : Incomplete lines) {line : Text}
    (hbalance : braceBalance (Text.unlines (lines ++ [line])) ≤ 0) :
    Complete (lines ++ [line]) := by
  refine ⟨List.concat_ne_nil line lines, hbalance, fun first hfirst hne hshorter => ?_⟩
  rcases List.prefix_concat_iff.mp hfirst with rfl | hfirst
  · exact absurd rfl hshorter
  · exact h first hfirst hne

/-- What a line leads to while some lines are pending. -/
theorem feed_cases {lines : List Text} (h : Incomplete lines) (line : Text) :
    (lines = [] ∧ AsksToLeave line ∧ feed (Text.unlines lines) (.line line) = (some .leave, [])) ∨
    (¬ (lines = [] ∧ AsksToLeave line) ∧ Incomplete (lines ++ [line]) ∧
      feed (Text.unlines lines) (.line line) = (none, Text.unlines (lines ++ [line]))) ∨
    (¬ (lines = [] ∧ AsksToLeave line) ∧ Complete (lines ++ [line]) ∧
      feed (Text.unlines lines) (.line line) =
        (some (.evaluate (Text.unlines (lines ++ [line]))), [])) := by
  by_cases hleave : lines = [] ∧ AsksToLeave line
  · obtain ⟨rfl, hasks⟩ := hleave
    exact .inl ⟨rfl, hasks, if_pos ⟨rfl, hasks⟩⟩
  · have hstays : ¬ ((Text.unlines lines).isEmpty = true ∧ line.trim = text "exit") :=
      fun hasks => hleave ⟨(isEmpty_unlines lines).mp hasks.1, hasks.2⟩
    by_cases hopen : 0 < braceBalance (Text.unlines (lines ++ [line]))
    · refine .inr (.inl ⟨hleave, h.concat hopen, ?_⟩)
      rw [unlines_concat] at hopen ⊢
      rw [feed, if_neg hstays]
      exact if_pos hopen
    · have hbalance := Int.not_lt.mp hopen
      refine .inr (.inr ⟨hleave, h.complete_concat hbalance, ?_⟩)
      rw [unlines_concat] at hbalance ⊢
      exact feed_of_balance hstays hbalance

/-! ## All lines -/

/-- More lines do not change which line is the first. -/
theorem stays_concat {lines : List Text} {line : Text}
    (hfirst : ∀ l ∈ lines.head?, ¬ AsksToLeave l) (hline : ¬ (lines = [] ∧ AsksToLeave line)) :
    ∀ l ∈ (lines ++ [line]).head?, ¬ AsksToLeave l := by
  intro l hl
  cases lines with
  | nil =>
      cases hl
      exact fun hasks => hline ⟨rfl, hasks⟩
  | cons first rest => exact hfirst l hl

/-- Lines that follow one another while some lines are pending are taken after these. -/
theorem events_lines {pending : List Text} (h : Incomplete pending)
    (hfirst : ∀ l ∈ pending.head?, ¬ AsksToLeave l) (lines : List Text) :
    ∃ groups rest last, Taken (pending ++ lines) groups rest last ∧
      events (Text.unlines pending) (lines.map .line) =
        groups.map (fun group => .evaluate (Text.unlines group)) ++ [last] := by
  induction lines generalizing pending with
  | nil =>
      refine ⟨[], pending, .close, ⟨List.append_nil pending, ?_, ?_, .inr ⟨rfl, h, hfirst⟩⟩, rfl⟩
      · exact List.forall_mem_nil _
      · exact List.forall_mem_nil _
  | cons line lines ih =>
      -- the line is the last one, is added to what is pending, or completes a group
      rcases feed_cases h line with ⟨rfl, hasks, hfeed⟩ | ⟨hstays, hopen, hfeed⟩ |
          ⟨hstays, hcomplete, hfeed⟩
      · refine ⟨[], line :: lines, .leave,
          ⟨rfl, List.forall_mem_nil _, List.forall_mem_nil _, ?_⟩, ?_⟩
        · exact .inl ⟨rfl, line, rfl, hasks⟩
        · rw [List.map_cons, events, hfeed]
          rfl
      · obtain ⟨groups, rest, last, htaken, hevents⟩ := ih hopen (stays_concat hfirst hstays)
        refine ⟨groups, rest, last, ?_, ?_⟩
        · rw [List.append_cons]
          exact htaken
        · rw [List.map_cons, events, hfeed]
          exact hevents
      · obtain ⟨groups, rest, last, htaken, hevents⟩ := ih incomplete_nil nofun
        refine ⟨(pending ++ [line]) :: groups, rest, last, ⟨?_, ?_, ?_, htaken.ends⟩, ?_⟩
        · rw [List.flatten_cons, List.append_assoc, ← htaken.lines_eq, List.append_cons]
          rfl
        · exact List.forall_mem_cons.mpr ⟨hcomplete, htaken.complete⟩
        · exact List.forall_mem_cons.mpr ⟨stays_concat hfirst hstays, htaken.stays⟩
        · rw [List.map_cons, events, hfeed]
          exact congrArg (_ :: ·) hevents

/-! ## There is one way to take lines -/

/-- Lines begin with at most one complete group. -/
theorem Complete.eq_of_begins {group group' lines : List Text} (h : Complete group)
    (h' : Complete group') (hbegins : group <+: lines) (hbegins' : group' <+: lines) :
    group = group' := by
  by_cases heq : group = group'
  · exact heq
  · -- the shorter one would be complete within the longer one
    rcases List.prefix_or_prefix_of_prefix hbegins hbegins' with hshorter | hshorter
    · exact absurd h.balanced (Int.not_le.mpr (h'.shortest group hshorter h.ne_nil heq))
    · exact absurd h'.balanced (Int.not_le.mpr (h.shortest group' hshorter h'.ne_nil (Ne.symm heq)))

namespace Taken

variable {lines group rest rest' : List Text} {groups groups' : List (List Text)}
  {last last' : Event}

theorem tail (h : Taken lines (group :: groups) rest last) :
    Taken (groups.flatten ++ rest) groups rest last :=
  ⟨rfl, fun g hg => h.complete g (List.mem_cons_of_mem group hg),
    fun g hg => h.stays g (List.mem_cons_of_mem group hg), h.ends⟩

/-- What is left at the end does not begin with a group that could be taken. -/
theorem not_begins (h : Taken lines [] rest last) (hcomplete : Complete group)
    (hstays : ∀ l ∈ group.head?, ¬ AsksToLeave l) : ¬ group <+: lines := by
  obtain rfl : lines = rest := h.lines_eq
  intro hbegins
  rcases h.ends with ⟨-, line, hline, hasks⟩ | ⟨-, hopen, -⟩
  · obtain ⟨more, rfl⟩ := hbegins
    rw [List.head?_append_of_ne_nil group hcomplete.ne_nil] at hline
    exact hstays line hline hasks
  · exact Int.not_le.mpr (hopen group hbegins hcomplete.ne_nil) hcomplete.balanced

/-- The lines say what the groups are, what is left, and what happens last. -/
theorem unique (h : Taken lines groups rest last) (h' : Taken lines groups' rest' last') :
    groups = groups' ∧ rest = rest' ∧ last = last' := by
  induction groups generalizing lines groups' with
  | nil =>
      cases groups' with
      | nil =>
          obtain rfl : lines = rest := h.lines_eq
          obtain rfl : lines = rest' := h'.lines_eq
          refine ⟨rfl, rfl, ?_⟩
          rcases h.ends with ⟨rfl, line, hline, hasks⟩ | ⟨rfl, -, hstays⟩
          -- the first line asks to leave, or it does not
          · rcases h'.ends with ⟨rfl, -⟩ | ⟨-, -, hstays'⟩
            · rfl
            · exact absurd hasks (hstays' line hline)
          · rcases h'.ends with ⟨-, line, hline, hasks⟩ | ⟨rfl, -⟩
            · exact absurd hasks (hstays line hline)
            · rfl
      | cons group' more' =>
          refine absurd ?_ (h.not_begins (h'.complete group' List.mem_cons_self)
            (h'.stays group' List.mem_cons_self))
          rw [h'.lines_eq, List.flatten_cons, List.append_assoc]
          exact List.prefix_append group' _
  | cons group more ih =>
      have hlines : lines = group ++ (more.flatten ++ rest) := by
        rw [h.lines_eq, List.flatten_cons, List.append_assoc]
      have hbegins : group <+: lines := hlines ▸ List.prefix_append group _
      have hcomplete := h.complete group List.mem_cons_self
      cases groups' with
      | nil => exact absurd hbegins (h'.not_begins hcomplete (h.stays group List.mem_cons_self))
      | cons group' more' =>
          have hlines' : lines = group' ++ (more'.flatten ++ rest') := by
            rw [h'.lines_eq, List.flatten_cons, List.append_assoc]
          have hbegins' : group' <+: lines := hlines' ▸ List.prefix_append group' _
          have hcomplete' := h'.complete group' List.mem_cons_self
          -- of two complete groups that begin the same lines neither is longer
          obtain rfl := hcomplete.eq_of_begins hcomplete' hbegins hbegins'
          have hmore : more.flatten ++ rest = more'.flatten ++ rest' :=
            List.append_cancel_left (hlines.symm.trans hlines')
          obtain ⟨rfl, hends⟩ := ih h.tail (hmore ▸ h'.tail)
          exact ⟨rfl, hends⟩

end Taken

/-- Of what happens, the groups are evaluated, and what happens last is no evaluation. -/
theorem Taken.sources_eq {lines rest : List Text} {groups : List (List Text)} {last : Event}
    (h : Taken lines groups rest last) :
    sources (groups.map (fun group => .evaluate (Text.unlines group)) ++ [last]) =
      groups.map Text.unlines := by
  have hlast : sources [last] = [] := by
    rcases h.ends with ⟨rfl, -⟩ | ⟨rfl, -⟩ <;> rfl
  have hgroups : sources (groups.map fun group => .evaluate (Text.unlines group)) =
      groups.map Text.unlines := by
    rw [sources, List.filterMap_map]
    exact congrFun List.filterMap_eq_map groups
  rw [sources, List.filterMap_append]
  show sources _ ++ sources [last] = _
  rw [hgroups, hlast, List.append_nil]

/-- **Typed lines are neither lost nor repeated nor reordered.** Let lines be typed, and then the
input end. There is one way to take them in groups from the first line on such that in each group
the braces balance, or more are closed than open, and in no shorter run of its first lines, that no
group begins with a line that asks to leave, and that what is left begins with such a line or has
more opening braces than closing ones in each run of its first lines. The sources that are evaluated
are these groups in their order, each line with a newline. After them the conversation ends: by the
line that asks to leave, and nothing that is typed after it counts, or else with the input. -/
theorem sources_are_groups_of_lines (lines : List Text) :
    ∃ groups rest last, Taken lines groups rest last ∧
      (∀ groups' rest' last', Taken lines groups' rest' last' →
        groups = groups' ∧ rest = rest' ∧ last = last') ∧
      events [] (lines.map .line) =
        groups.map (fun group => .evaluate (Text.unlines group)) ++ [last] ∧
      sources (events [] (lines.map .line)) = groups.map Text.unlines := by
  obtain ⟨groups, rest, last, htaken, hevents⟩ := events_lines incomplete_nil nofun lines
  refine ⟨groups, rest, last, htaken, fun _ _ _ => htaken.unique, hevents, ?_⟩
  have hevents : events [] (lines.map .line) = _ := hevents
  rw [hevents]
  exact htaken.sources_eq

-- a line that asks to leave is a line like others while lines are pending
example :
    sources (events [] ([text "fn(x) \x7b", text "exit", text "\x7d", text "\x7d",
      text " exit ", text "1"].map .line)) = [text "fn(x) \x7b\nexit\n\x7d\n", text "\x7d\n"] := by
  decide +kernel

end Monkey
