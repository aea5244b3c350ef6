import Monkey.Proofs.Nodes
import Monkey.Proofs.Tiling

/-!
# The spans of a tree nest

A reader comes upon tokens one after another, and each node is made of the tokens between the one
that it starts with and the one that is current when it is done. So the nodes that are read in a row
lie in a row (`Lined`), and a node made of them lies around them. `Reader.Through` says how far the
reading of some nodes has come: up to the end of the current token; `Reader.Before` says that it has
come up to its start. Moving on leads from the first to the second, and every rule of the grammar
leads from the second to the first with its own node added, whether the source is well formed or
not.
-/

namespace Monkey

/-! ## Nodes in a row -/

/-- A span lies within another. -/
def Span.Within (s outer : Span) : Prop :=
  outer.start.offset ≤ s.start.offset ∧ s.stop.offset ≤ outer.stop.offset

/-- A span stops where another starts, or before. -/
def Span.Precedes (s later : Span) : Prop :=
  s.stop.offset ≤ later.start.offset

/-- A node has bytes of its own, and the nodes right below it lie within it, one after another. -/
structure Node.Tidy (n : Node) : Prop where
  solid : ∀ s ∈ n.span?, s.start.offset < s.stop.offset
  within : ∀ s ∈ n.span?, ∀ child ∈ n.children, ∀ s' ∈ child.span?, s'.Within s
  ordered : (n.children.filterMap Node.span?).Pairwise Span.Precedes

/-- A node, if it is there, lies between two offsets, and it and all nodes below it are tidy. -/
structure Node.Fits (lo : Int) (n : Node) (hi : Int) : Prop where
  le : lo ≤ hi
  span : ∀ s ∈ n.span?, lo ≤ s.start.offset ∧ s.start.offset < s.stop.offset ∧ s.stop.offset ≤ hi
  tidy : ∀ m, n.Contains m → m.Tidy

/-- Nodes fit between two offsets one after another. -/
def Lined (lo : Int) : List Node → Int → Prop
  | [], hi => lo ≤ hi
  | n :: rest, hi => ∃ mid, n.Fits lo mid ∧ Lined mid rest hi

namespace Node.Fits

variable {n : Node} {lo hi lo' hi' : Int}

/-- A node that fits between two offsets fits between any that are further apart. -/
theorem mono (h : n.Fits lo hi) (hlo : lo' ≤ lo) (hhi : hi ≤ hi') : n.Fits lo' hi' where
  le := Int.le_trans hlo (Int.le_trans h.le hhi)
  span s hs := by
    obtain ⟨hstart, hsolid, hstop⟩ := h.span s hs
    exact ⟨Int.le_trans hlo hstart, hsolid, Int.le_trans hstop hhi⟩
  tidy := h.tidy

end Node.Fits

namespace Lined

variable {ns ns' : List Node} {lo mid hi lo' hi' : Int}

/-- Nodes in a row have room between where they start and where they end. -/
theorem le (h : Lined lo ns hi) : lo ≤ hi := by
  induction ns generalizing lo with
  | nil => exact h
  | cons n rest ih =>
      obtain ⟨mid, hn, hrest⟩ := h
      exact Int.le_trans hn.le (ih hrest)

/-- A row may have room before and after it. -/
theorem mono (h : Lined lo ns hi) (hlo : lo' ≤ lo) (hhi : hi ≤ hi') : Lined lo' ns hi' := by
  induction ns generalizing lo lo' with
  | nil => exact Int.le_trans hlo (Int.le_trans h hhi)
  | cons n rest ih =>
      obtain ⟨mid, hn, hrest⟩ := h
      exact ⟨mid, hn.mono hlo (Int.le_refl _), ih hrest (Int.le_refl _)⟩

/-- Two rows, the second starting where the first ends, are one row. -/
theorem append (h : Lined lo ns mid) (h' : Lined mid ns' hi) : Lined lo (ns ++ ns') hi := by
  induction ns generalizing lo with
  | nil => exact h'.mono h (Int.le_refl _)
  | cons n rest ih =>
      obtain ⟨mid', hn, hrest⟩ := h
      exact ⟨mid', hn, ih hrest⟩

/-- The first nodes of a row are a row themselves. -/
theorem of_append (h : Lined lo (ns ++ ns') hi) : Lined lo ns hi := by
  induction ns generalizing lo with
  | nil => exact h.le
  | cons n rest ih =>
      obtain ⟨mid, hn, hrest⟩ := h
      exact ⟨mid, hn, ih hrest⟩

theorem singleton {n : Node} (h : n.Fits lo hi) : Lined lo [n] hi :=
  ⟨hi, h, Int.le_refl _⟩

/-- Each of the nodes fits between the outer offsets. -/
theorem fits (h : Lined lo ns hi) : ∀ n ∈ ns, n.Fits lo hi := by
  induction ns generalizing lo with
  | nil => exact List.forall_mem_nil _
  | cons n rest ih =>
      obtain ⟨mid, hn, hrest⟩ := h
      refine List.forall_mem_cons.mpr ⟨hn.mono (Int.le_refl _) hrest.le, ?_⟩
      intro m hm
      exact (ih hrest m hm).mono hn.le (Int.le_refl _)

/-- Of two nodes that are there, the first stops before the second starts. -/
theorem ordered (h : Lined lo ns hi) : (ns.filterMap Node.span?).Pairwise Span.Precedes := by
  induction ns generalizing lo with
  | nil => exact .nil
  | cons n rest ih =>
      obtain ⟨mid, hn, hrest⟩ := h
      cases hspan : n.span? with
      | none =>
          rw [List.filterMap_cons_none hspan]
          exact ih hrest
      | some s =>
          rw [List.filterMap_cons_some hspan]
          refine List.pairwise_cons.mpr ⟨?_, ih hrest⟩
          intro s' hs'
          obtain ⟨m, hm, hmspan⟩ := List.mem_filterMap.mp hs'
          have hstop := (hn.span s hspan).2.2
          have hstart := ((hrest.fits m hm).span s' hmspan).1
          exact Int.le_trans hstop hstart

end Lined

/-- A node with bytes of its own fits if the nodes right below it lie in a row within it. -/
theorem Node.fits_of_children {n : Node} {s : Span} (hspan : n.span? = some s)
    (hsolid : s.start.offset < s.stop.offset)
    (hchildren : Lined s.start.offset n.children s.stop.offset) :
    n.Fits s.start.offset s.stop.offset := by
  have heq : ∀ s' ∈ n.span?, s' = s := fun s' hs' => Option.some.inj (hs'.symm.trans hspan)
  refine ⟨Int.le_of_lt hsolid, ?_, ?_⟩
  · intro s' hs'
    obtain rfl := heq s' hs'
    exact ⟨Int.le_refl _, hsolid, Int.le_refl _⟩
  · intro m hm
    cases hm with
    | self =>
        refine ⟨?_, ?_, hchildren.ordered⟩
        · intro s' hs'
          obtain rfl := heq s' hs'
          exact hsolid
        · intro s' hs' child hchild s'' hs''
          obtain rfl := heq s' hs'
          obtain ⟨hstart, -, hstop⟩ := (hchildren.fits child hchild).span s'' hs''
          exact ⟨hstart, hstop⟩
    | step hchild hm => exact (hchildren.fits _ hchild).tidy m hm

/-- What is not there fits anywhere. -/
theorem Node.fits_gap {n : Node} (hspan : n.span? = none) (hchildren : n.children = [])
    {lo hi : Int}
    (h : lo ≤ hi) : n.Fits lo hi := by
  have hnone : ∀ s, s ∉ n.span? := fun s hs => Option.not_mem_none s (hspan ▸ hs)
  refine ⟨h, fun s hs => absurd hs (hnone s), ?_⟩
  intro m hm
  cases hm with
  | self =>
      refine ⟨fun s hs => absurd hs (hnone s), fun s hs => absurd hs (hnone s), ?_⟩
      rw [hchildren]
      exact .nil
  | step hchild _ =>
      rw [hchildren] at hchild
      exact absurd hchild List.not_mem_nil

/-! ## Tokens in a row -/

namespace Reader

/-- The tokens of a reader stand one after another, and each but the end token has bytes of its
own. -/
structure Placed (r : Reader) : Prop where
  eof : r.eof.kind = .eof
  thin : r.eof.span.start.offset = r.eof.span.stop.offset
  solid : ∀ t ∈ r.tokens, t.span.start.offset < t.span.stop.offset
  ordered : (r.tokens ++ [r.eof]).Pairwise fun t u => t.span.stop.offset ≤ u.span.start.offset

namespace Placed

variable {r r' : Reader}

/-- A placed reader stays placed as it reads on. -/
theorem onward (h : r.Placed) (ho : r.Onward r') : r'.Placed where
  eof := ho.eof ▸ h.eof
  thin := ho.eof ▸ h.thin
  solid t ht := h.solid t (ho.tokens.subset ht)
  ordered := ho.eof ▸ h.ordered.sublist (ho.tokens.sublist.append_right _)

/-- Every token but the end token covers something. -/
theorem start_lt_stop (h : r.Placed) (hk : r.current.kind ≠ .eof) :
    r.current.span.start.offset < r.current.span.stop.offset := by
  obtain ⟨tokens, eof, problems⟩ := r
  cases tokens with
  | nil => exact absurd h.eof hk
  | cons t rest => exact h.solid t List.mem_cons_self

/-- No token ends before it starts. -/
theorem start_le_stop (h : r.Placed) :
    r.current.span.start.offset ≤ r.current.span.stop.offset := by
  obtain ⟨tokens, eof, problems⟩ := r
  cases tokens with
  | nil => exact Int.le_of_eq h.thin
  | cons t rest => exact Int.le_of_lt (h.solid t List.mem_cons_self)

/-- The current token is one of those that the reader was made with. -/
theorem current_mem (r : Reader) : r.current ∈ r.tokens ++ [r.eof] := by
  obtain ⟨tokens, eof, problems⟩ := r
  cases tokens with
  | nil => exact List.mem_singleton_self _
  | cons t rest => exact List.mem_cons_self

/-- Reading on stays at the current token or comes to one that starts where it stops or later. -/
theorem current_onward (h : r.Placed) (ho : r.Onward r') :
    r'.current = r.current ∨ r.current.span.stop.offset ≤ r'.current.span.start.offset := by
  obtain ⟨front, hfront⟩ := ho.tokens
  cases front with
  | nil =>
      left
      rw [current, current, ← hfront, ho.eof]
      rfl
  | cons t front =>
      right
      have hcurrent : r.current = t := by
        rw [current, ← hfront]
        rfl
      have hordered := h.ordered
      rw [← hfront, ← ho.eof, List.cons_append, List.cons_append, List.append_assoc] at hordered
      rw [hcurrent]
      exact (List.pairwise_cons.mp hordered).1 _ (List.mem_append_right _ (current_mem r'))

/-- Reading on never goes back: the current token starts no earlier than before. -/
theorem start_le (h : r.Placed) (ho : r.Onward r') :
    r.current.span.start.offset ≤ r'.current.span.start.offset := by
  rcases h.current_onward ho with heq | hlater
  · exact heq ▸ Int.le_refl _
  · exact Int.le_trans h.start_le_stop hlater

/-- Nor does the current token end earlier than before. -/
theorem stop_le (h : r.Placed) (ho : r.Onward r') :
    r.current.span.stop.offset ≤ r'.current.span.stop.offset := by
  rcases h.current_onward ho with heq | hlater
  · exact heq ▸ Int.le_refl _
  · exact Int.le_trans hlater (h.onward ho).start_le_stop

/-- The next token starts where the current one stops or later. -/
theorem stop_le_advance (h : r.Placed) :
    r.current.span.stop.offset ≤ r.advance.current.span.start.offset := by
  obtain ⟨tokens, eof, problems⟩ := r
  cases tokens with
  | nil => exact Int.le_of_eq h.thin.symm
  | cons t rest => exact (List.pairwise_cons.mp h.ordered).1 _ (current_mem ⟨rest, eof, problems⟩)

end Placed

/-- Some nodes have been read from where a reader was, in a row up to the end of the current
token. -/
structure Through (r₀ : Reader) (ns : List Node) (r : Reader) : Prop where
  placed : r₀.Placed
  onward : r₀.Onward r
  nodes : Lined r₀.current.span.start.offset ns r.current.span.stop.offset

/-- The same up to the start of the current token. -/
structure Before (r₀ : Reader) (ns : List Node) (r : Reader) : Prop where
  placed : r₀.Placed
  onward : r₀.Onward r
  nodes : Lined r₀.current.span.start.offset ns r.current.span.start.offset

variable {r₀ r₁ r r' : Reader} {ns ns' : List Node}

namespace Before

theorem here (h : r₀.Before ns r) : r.Placed :=
  h.placed.onward h.onward

/-- What has been read before the current token has been read through it too. -/
theorem through (h : r₀.Before ns r) : r₀.Through ns r :=
  ⟨h.placed, h.onward, h.nodes.mono (Int.le_refl _) h.here.start_le_stop⟩

/-- What is read from the current token on comes after what was read before it. -/
theorem append (h : r₀.Before ns r) (h' : r.Through ns' r') : r₀.Through (ns ++ ns') r' :=
  ⟨h.placed, h.onward.trans h'.onward, h.nodes.append h'.nodes⟩

/-- The current token may be a node by itself. -/
theorem token (h : r₀.Before ns r) (hk : r.current.kind ≠ .eof) {n : Node}
    (hspan : n.span? = some r.current.span) (hchildren : n.children = []) :
    r₀.Through (ns ++ [n]) r := by
  have hfits : n.Fits r.current.span.start.offset r.current.span.stop.offset := by
    refine Node.fits_of_children hspan (h.here.start_lt_stop hk) ?_
    rw [hchildren]
    exact h.here.start_le_stop
  exact ⟨h.placed, h.onward, h.nodes.append (.singleton hfits)⟩

end Before

namespace Through

theorem here (h : r₀.Through ns r) : r.Placed :=
  h.placed.onward h.onward

/-- A reader that has read nothing yet. -/
theorem start (h : r.Placed) : r.Through [] r :=
  ⟨h, .refl r, h.start_le_stop⟩

/-- Once the current token is passed, the nodes that were read lie before the next one. -/
theorem advance (h : r₀.Through ns r) : r₀.Before ns r.advance :=
  ⟨h.placed, h.onward.trans (.advance r), h.nodes.mono (Int.le_refl _) h.here.stop_le_advance⟩

/-- Tokens may be passed behind the nodes that were read. -/
theorem of_onward (h : r₀.Through ns r) (ho : r.Onward r') : r₀.Through ns r' :=
  ⟨h.placed, h.onward.trans ho, h.nodes.mono (Int.le_refl _) (h.here.stop_le ho)⟩

/-- What was read last may be given up. -/
theorem forget (h : r₀.Through (ns ++ ns') r) : r₀.Through ns r :=
  ⟨h.placed, h.onward, h.nodes.of_append⟩

/-- What was read may be left out of the count. -/
theorem nothing (h : r₀.Through ns r) : r₀.Through [] r :=
  ⟨h.placed, h.onward, h.nodes.le⟩

/-- A gap may follow what was read. -/
theorem gap (h : r₀.Through ns r) {n : Node} (hspan : n.span? = none)
    (hchildren : n.children = []) :
    r₀.Through (ns ++ [n]) r :=
  ⟨h.placed, h.onward, h.nodes.append (.singleton (Node.fits_gap hspan hchildren (Int.le_refl _)))⟩

/-- Instead of what was read, there may be an absent expression. -/
theorem absent (h : r₀.Through ns r) : r₀.Through [.expr .absent] r :=
  h.nothing.gap rfl rfl

end Through

end Reader

/-- A span joined with a later one goes from the start of the first to the stop of the second. -/
theorem Span.offset_join {s s' : Span} (hstart : s.start.offset ≤ s'.start.offset)
    (hstop : s.stop.offset ≤ s'.stop.offset) :
    (s.join s').start.offset = s.start.offset ∧ (s.join s').stop.offset = s'.stop.offset := by
  constructor
  · show (if s'.start.offset < s.start.offset then s'.start else s.start).offset = _
    rw [if_neg (Int.not_lt.mpr hstart)]
  · show (if s.stop.offset < s'.stop.offset then s'.stop else s.stop).offset = _
    split <;> omega

/-- A node from the start of one span to the stop of a later one fits if the nodes right below it
lie in a row between them. -/
theorem Node.fits_join {n : Node} {s s' : Span} (hspan : n.span? = some (s.join s'))
    (hsolid : s.start.offset < s.stop.offset) (hstart : s.start.offset ≤ s'.start.offset)
    (hstop : s.stop.offset ≤ s'.stop.offset)
    (hchildren : Lined s.start.offset n.children s'.stop.offset) :
    n.Fits s.start.offset s'.stop.offset := by
  obtain ⟨hjoinStart, hjoinStop⟩ := Span.offset_join hstart hstop
  rw [← hjoinStart, ← hjoinStop] at hchildren ⊢
  refine fits_of_children hspan ?_ hchildren
  rw [hjoinStart, hjoinStop]
  exact Int.lt_of_lt_of_le hsolid hstop

namespace Reader

variable {r₀ r₁ r : Reader} {ns : List Node}

/-- A node that starts with a token and is made of what was read from it on. -/
theorem Through.close (h : r₀.Through ns r) (hk : r₀.current.kind ≠ .eof) {n : Node}
    (hspan : n.span? = some (r.originFrom r₀.current).span) (hchildren : n.children = ns) :
    r₀.Through [n] r := by
  refine ⟨h.placed, h.onward, .singleton ?_⟩
  refine Node.fits_join hspan (h.placed.start_lt_stop hk) (h.placed.start_le h.onward)
    (h.placed.stop_le h.onward) ?_
  rw [hchildren]
  exact h.nodes

/-- A node that starts with a left operand, and is made of it and what was read from the token after
it on. -/
theorem Through.closeAfter {left : Expr} (hleft : r₀.Before [.expr left] r₁) (h : r₁.Through ns r)
    (hk : r₁.current.kind ≠ .eof) {n : Node}
    (hspan : n.span? = some (r.originAfter left r₁.current).span)
    (hchildren : n.children = .expr left :: ns) : r₀.Through [n] r := by
  refine ⟨hleft.placed, hleft.onward.trans h.onward, .singleton ?_⟩
  obtain ⟨mid, hfits, hmid⟩ := hleft.nodes
  have hlater := h.placed.start_le h.onward
  cases hthere : left.span? with
  | none =>
      -- without its left operand the node starts with the operator
      have habsent : (Node.expr left).Fits r₁.current.span.start.offset
          r₁.current.span.start.offset := by
        refine ⟨Int.le_refl _, fun s hs => ?_, hfits.tidy⟩
        rw [show (Node.expr left).span? = none from hthere] at hs
        exact absurd hs (Option.not_mem_none s)
      have horigin : r.originAfter left r₁.current = r.originFrom r₁.current := by
        rw [originAfter, hthere]
      rw [horigin] at hspan
      refine Node.Fits.mono (Node.fits_join hspan (h.placed.start_lt_stop hk) hlater
        (h.placed.stop_le h.onward) ?_) (Int.le_trans hfits.le hmid) (Int.le_refl _)
      rw [hchildren]
      exact ⟨_, habsent, h.nodes⟩
  | some s =>
      obtain ⟨hstart, hsolid, hstop⟩ := hfits.span s hthere
      have hown : (Node.expr left).Fits s.start.offset s.stop.offset := by
        refine ⟨Int.le_of_lt hsolid, fun s' hs' => ?_, hfits.tidy⟩
        obtain rfl : s' = s := Option.some.inj (hs'.symm.trans hthere)
        exact ⟨Int.le_refl _, hsolid, Int.le_refl _⟩
      have hnext : s.stop.offset ≤ r₁.current.span.start.offset := Int.le_trans hstop hmid
      have hend := h.here.start_le_stop
      have horigin : (r.originAfter left r₁.current).span = s.join r.current.span := by
        rw [originAfter, hthere]
      rw [horigin] at hspan
      refine Node.Fits.mono (Node.fits_join hspan hsolid (by omega) (by omega) ?_) hstart
        (Int.le_refl _)
      rw [hchildren]
      exact ⟨_, hown, h.nodes.mono hnext (Int.le_refl _)⟩

end Reader

/-! ## Readings -/

namespace Parse

/-- From readers of which one thing holds, a reading leads to a value and a reader of which another
holds. -/
def Ensures {α : Type} (P : Reader → Prop) (x : Parse α) (Q : α → Reader → Prop) : Prop :=
  ∀ r, P r → Q (x.run r).1 (x.run r).2

namespace Ensures

variable {α β : Type} {P P' : Reader → Prop} {Q : α → Reader → Prop} {R : β → Reader → Prop}
  {r₀ : Reader} {ns : List Node}

theorem pure {a : α} (h : ∀ r, P r → Q a r) : Ensures P (pure a) Q :=
  h

/-- A reading in two parts ensures what its second part ensures, if the first part ensures what the
second one needs. -/
theorem bind {x : Parse α} {f : α → Parse β} (hx : Ensures P x Q)
    (hf : ∀ a, Ensures (Q a) (f a) R) : Ensures P (x >>= f) R :=
  fun r hr => hf _ _ (hx r hr)

theorem weaken {x : Parse α} (hx : Ensures P x Q) (h : ∀ r, P' r → P r) : Ensures P' x Q :=
  fun r hr => hx r (h r hr)

/-- A reading that chooses may rest on what was chosen. -/
theorem ite {c : Prop} [Decidable c] {x y : Parse α} (hx : c → Ensures P x Q)
    (hy : ¬c → Ensures P y Q) : Ensures P (if c then x else y) Q := by
  by_cases hc : c
  · rw [if_pos hc]
    exact hx hc
  · rw [if_neg hc]
    exact hy hc

/-- What is done with the current token may rest on which token it is. -/
theorem current {f : Token → Parse α}
    (h : ∀ t, Ensures (fun r => P r ∧ r.current = t) (f t) Q) : Ensures P (Parse.current >>= f) Q :=
  fun r hr => h r.current r ⟨hr, rfl⟩

/-- What is done with the next token may rest on which token it is. -/
theorem upcoming {f : Token → Parse α}
    (h : ∀ t, Ensures (fun r => P r ∧ r.upcoming = t) (f t) Q) :
    Ensures P (Parse.upcoming >>= f) Q :=
  fun r hr => h r.upcoming r ⟨hr, rfl⟩

theorem rounds {f : Nat → Parse α} (h : ∀ n, Ensures P (f n) Q) :
    Ensures P (Bounded.rounds >>= f) Q :=
  fun r hr => h r.tokens.length r hr

/-- What comes after a token that is passed is read with all nodes before the current token. -/
theorem advance {f : Unit → Parse α} (h : Ensures (r₀.Before ns) (f ()) Q) :
    Ensures (r₀.Through ns) (Parse.advance >>= f) Q :=
  fun r hr => h r.advance hr.advance

/-- The same from the start of the current token. -/
theorem next {f : Unit → Parse α} (h : Ensures (r₀.Before ns) (f ()) Q) :
    Ensures (fun r => r₀.Before ns r ∧ P r) (Parse.advance >>= f) Q :=
  fun r hr => h r.advance hr.1.through.advance

theorem note {problem : Problem} {f : Unit → Parse α} (h : Ensures (r₀.Through ns) (f ()) Q) :
    Ensures (r₀.Through ns) (Parse.note problem >>= f) Q :=
  fun r hr => h (r.note problem) (hr.of_onward (.note r problem))

/-- A token that is skipped or not leaves the nodes as they lie. -/
theorem skip {k : Kind} : Ensures (r₀.Through ns) (Parse.skip k) fun _ => r₀.Through ns := by
  intro r hr
  rw [run_skip]
  exact hr.of_onward (.skip r k)

/-- A token that must come next, and what is done with and without it. -/
theorem require {k : Kind} {x y : Parse α}
    (hx : Ensures (fun r => r₀.Before ns r ∧ r.current.kind = k) x Q)
    (hy : Ensures (r₀.Through ns) y Q) :
    Ensures (r₀.Through ns) (Parse.expect k >>= fun there => if there = true then x else y) Q := by
  have hexpect : Ensures (r₀.Through ns) (Parse.expect k) fun there r =>
      (there = true → r₀.Before ns r ∧ r.current.kind = k) ∧ r₀.Through ns r := by
    intro r hr
    rw [run_expect]
    split
    · rename_i hk
      exact ⟨fun _ => ⟨hr.advance, hk⟩, hr.advance.through⟩
    · exact ⟨fun hthere => absurd hthere Bool.false_ne_true, hr.of_onward (.note r _)⟩
  refine hexpect.bind fun there => .ite (fun hthere => ?_) fun _ => ?_
  · exact hx.weaken fun r hr => hr.1 hthere
  · exact hy.weaken fun r hr => hr.2

/-- A name is a node by itself. -/
theorem name {k : Kind} (hk : k ≠ .eof) {f : Token → Parse α}
    (h : ∀ t : Token, Ensures (r₀.Through (ns ++ [Binder.node ⟨t.origin, t.literal⟩])) (f t) Q) :
    Ensures (fun r => r₀.Before ns r ∧ r.current.kind = k) (Parse.current >>= f) Q := by
  rintro r ⟨hr, rfl⟩
  exact h r.current r (hr.token hk rfl rfl)

/-- A node that starts with a token is done. -/
theorem close {mk : Origin → α} {node : Origin → Node} {nodes : α → List Node}
    (hk : r₀.current.kind ≠ .eof) (hnodes : ∀ o, nodes (mk o) = [node o])
    (hspan : ∀ o, (node o).span? = some o.span) (hchildren : ∀ o, (node o).children = ns) :
    Ensures (r₀.Through ns) (Parse.originFrom r₀.current >>= fun o => Pure.pure (mk o))
      fun a => r₀.Through (nodes a) := by
  intro r hr
  show r₀.Through (nodes (mk (r.originFrom r₀.current))) r
  rw [hnodes]
  exact hr.close hk (hspan _) (hchildren _)

end Ensures

/-- From where it starts, a reading builds some nodes in a row, up to the end of the token that it
ends with. -/
def Builds {α : Type} (x : Parse α) (nodes : α → List Node) (r : Reader) : Prop :=
  r.Through (nodes (x.run r).1) (x.run r).2

namespace Builds

variable {α : Type} {x : Parse α} {nodes : α → List Node} {r : Reader}

theorem current {f : Token → Parse α} (h : Builds (f r.current) nodes r) :
    Builds (Parse.current >>= f) nodes r :=
  h

/-- A reading that starts with nothing read builds what lies in a row from there. -/
theorem of_through (hr : r.Placed) (h : Ensures (r.Through []) x fun a => r.Through (nodes a)) :
    Builds x nodes r :=
  h r (.start hr)

/-- The same for a reading that does not start with the current token. -/
theorem of_before (hr : r.Placed) (h : Ensures (r.Before []) x fun a => r.Through (nodes a)) :
    Builds x nodes r :=
  h r ⟨hr, .refl r, Int.le_refl _⟩

end Builds

/-! ## Rules -/

/-- A rule for expressions builds one. No operator is looked for below the lowest precedence. -/
def Places (expr : Precedence → Parse Expr) : Prop :=
  ∀ above, Precedence.lowest ≤ above → ∀ r : Reader, r.Placed →
    Builds (expr above) (fun e => [.expr e]) r

variable {expr : Precedence → Parse Expr} {r₀ r : Reader} {ns : List Node}

/-- An expression inside a rule lies behind the nodes that were read before it. -/
theorem Places.above (h : Places expr) {above : Precedence} (habove : .lowest ≤ above) :
    Ensures (r₀.Before ns) (expr above) fun e => r₀.Through (ns ++ [.expr e]) :=
  fun r hr => hr.append (h above habove r hr.here)

theorem Places.lowest (h : Places expr) :
    Ensures (r₀.Before ns) (expr .lowest) fun e => r₀.Through (ns ++ [.expr e]) :=
  h.above (Nat.le_refl _)

/-- An absent expression lies anywhere. -/
theorem ensures_absent :
    Ensures (r₀.Through ns) (pure .absent) fun e => r₀.Through [.expr e] :=
  .pure fun _ hr => hr.absent

/-- A let statement lies within what it was read from, with its name and value in a row inside
it. -/
theorem builds_letStatement (h : Places expr) (hr : r.Placed) (hk : r.current.kind ≠ .eof) :
    Builds (letStatement expr) (fun s => s.toList.map .stmt) r := by
  have hnone {ns : List Node} : Ensures (r.Through ns) (pure none)
      fun s : Option Stmt => r.Through (s.toList.map .stmt) :=
    .pure fun _ hr => hr.nothing
  refine .current (.of_through hr (.require ?_ hnone))
  refine .name (by decide) fun name => .require (.next (h.lowest.bind fun value => ?_)) hnone
  exact .bind .skip fun _ => .close hk (fun _ => rfl) (fun _ => rfl) fun _ => rfl

/-- A return statement lies within what it was read from, with its value or without one. -/
theorem builds_returnStatement (h : Places expr) (hr : r.Placed) (hk : r.current.kind ≠ .eof) :
    Builds (returnStatement expr) (fun s => [.stmt s]) r := by
  have hlast (value : Expr) : Ensures (r.Through [.expr value]) (do
      skip .semicolon
      return Stmt.ret (← originFrom r.current) value) fun s => r.Through [.stmt s] :=
    .bind .skip fun _ => .close hk (fun _ => rfl) (fun _ => rfl) fun _ => rfl
  refine .current (.of_through hr (.upcoming fun t => ?_))
  refine .weaken (.ite (fun _ => ?_) fun _ => ?_) fun _ hr => hr.1
  · exact ensures_absent.bind hlast
  · exact .advance (h.lowest.bind hlast)

theorem builds_expressionStatement (h : Places expr) (hr : r.Placed) (hk : r.current.kind ≠ .eof) :
    Builds (expressionStatement expr) (fun s => [.stmt s]) r := by
  refine .current (.of_before hr (h.lowest.bind fun value => ?_))
  exact .bind .skip fun _ => .close hk (fun _ => rfl) (fun _ => rfl) fun _ => rfl

/-- A statement lies within what it was read from, whichever it is. -/
theorem builds_statement (h : Places expr) (hr : r.Placed) (hk : r.current.kind ≠ .eof) :
    Builds (statement expr) (fun s => s.toList.map .stmt) r := by
  refine .current ?_
  split
  · exact builds_letStatement h hr hk
  · exact builds_returnStatement h hr hk
  · exact builds_expressionStatement h hr hk

/-- Statements lie in a row. The induction is on the rounds that are left. -/
theorem ensures_statementsUntil (h : Places expr) (closing : Option Kind) (n : Nat) :
    Ensures (r₀.Before ns) (statementsUntil expr closing n)
      fun ss => r₀.Before (ns ++ ss.map .stmt) := by
  have hnone {ns : List Node} : Ensures (r₀.Before ns) (pure [])
      fun ss : List Stmt => r₀.Before (ns ++ ss.map .stmt) :=
    .pure fun _ hr => (List.append_nil ns).symm ▸ hr
  induction n generalizing ns with
  | zero => exact hnone
  | succ n ih =>
      refine .current fun t => .ite (fun _ => hnone.weaken fun _ hr => hr.1) fun hgo => ?_
      have hfirst : Ensures (fun r => r₀.Before ns r ∧ r.current = t) (statement expr)
          fun first => r₀.Through (ns ++ first.toList.map .stmt) := by
        rintro r ⟨hr, rfl⟩
        exact hr.append (builds_statement h hr.here fun heof => hgo (.inl heof))
      refine hfirst.bind fun first => .advance (ih.bind fun rest => .pure fun r hr => ?_)
      rw [List.map_append, ← List.append_assoc]
      exact hr

/-- A block lies within its braces, with its statements in a row inside it. -/
theorem builds_block (h : Places expr) (hr : r.Placed) (hk : r.current.kind ≠ .eof) :
    Builds (block expr) (fun b => [.stmt (.block b)]) r := by
  refine .current (.of_through hr (.advance (.rounds fun n => ?_)))
  refine (ensures_statementsUntil h _ n).bind fun statements => .current fun last => ?_
  refine .weaken (P := r.Through (statements.map .stmt)) ?_ fun _ hr => hr.1.through
  refine .ite (fun _ => .note ?_) fun _ => ?_
  · exact .close hk (fun _ => rfl) (fun _ => rfl) fun _ => rfl
  · exact .close hk (fun _ => rfl) (fun _ => rfl) fun _ => rfl

/-- A block after an opening brace. -/
theorem ensures_block (h : Places expr) :
    Ensures (fun r => r₀.Before ns r ∧ r.current.kind = .lbrace) (block expr)
      fun b => r₀.Through (ns ++ [.stmt (.block b)]) := by
  rintro r ⟨hr, hk⟩
  exact hr.append (builds_block h hr.here (by rw [hk]; decide))

/-- More expressions of a list lie in a row behind the first. -/
theorem ensures_moreExpressions (h : Places expr) (n : Nat) :
    Ensures (r₀.Through ns) (moreExpressions expr n)
      fun es => r₀.Through (ns ++ es.map .expr) := by
  have hnone {ns : List Node} : Ensures (r₀.Through ns) (pure [])
      fun es : List Expr => r₀.Through (ns ++ es.map .expr) :=
    .pure fun _ hr => (List.append_nil ns).symm ▸ hr
  induction n generalizing ns with
  | zero => exact hnone
  | succ n ih =>
      refine .upcoming fun t => .weaken (.ite (fun _ => ?_) fun _ => hnone) fun _ hr => hr.1
      refine .advance (.weaken (.advance ?_) fun _ hr => hr.through)
      refine h.lowest.bind fun first => ih.bind fun rest => .pure fun r hr => ?_
      rw [List.map_cons, List.append_cons]
      exact hr

/-- The expressions of a list lie in a row up to its closing token. -/
theorem ensures_expressionList (h : Places expr) (closing : Kind) :
    Ensures (r₀.Through ns) (expressionList expr closing)
      fun es => r₀.Through (ns ++ (es.getD []).map .expr) := by
  refine .upcoming fun t => .weaken (.ite (fun _ => ?_) fun _ => ?_) fun _ hr => hr.1
  · exact .advance (.pure fun _ hr => (List.append_nil ns).symm ▸ hr.through)
  · refine .advance (h.lowest.bind fun first => .rounds fun n => ?_)
    refine (ensures_moreExpressions h n).bind fun rest => .require (.pure fun r hr => ?_)
      (.pure fun r hr => ?_)
    · show r₀.Through (ns ++ .expr first :: rest.map .expr) r
      rw [List.append_cons]
      exact hr.1.through
    · -- the elements are given up with the list
      rw [List.append_assoc] at hr
      exact (List.append_nil ns).symm ▸ hr.forget

/-- More parameters lie in a row behind the first. -/
theorem ensures_moreParameters (n : Nat) :
    Ensures (r₀.Through ns) (moreParameters n)
      fun ps => r₀.Through (ns ++ (ps.getD []).map Binder.node) := by
  have hnone {ns : List Node} (ps : Option (List Binder)) (hps : ps.getD [] = []) :
      Ensures (r₀.Through ns) (pure ps)
        fun ps => r₀.Through (ns ++ (ps.getD []).map Binder.node) := by
    refine .pure fun _ hr => ?_
    rw [hps, List.map_nil, List.append_nil]
    exact hr
  induction n generalizing ns with
  | zero => exact hnone (some []) rfl
  | succ n ih =>
      refine .upcoming fun t => .weaken (.ite (fun _ => ?_) fun _ => hnone (some []) rfl)
        fun _ hr => hr.1
      refine .advance (.weaken (.require (.name (by decide) fun name => ?_) (hnone none rfl))
        fun _ hr => hr.through)
      refine ih.bind fun rest => ?_
      split
      · refine .pure fun r hr => ?_
        show r₀.Through (ns ++ _ :: List.map Binder.node _) r
        rw [List.append_cons]
        exact hr
      -- parameters that are given up leave nothing in the tree
      · refine .weaken (hnone none rfl) fun r hr => ?_
        rw [List.append_assoc] at hr
        exact hr.forget

/-- The parameters of a function lie in a row between its parentheses. -/
theorem ensures_parameters :
    Ensures (r₀.Through ns) parameters
      fun ps => r₀.Through (ns ++ (ps.getD []).map Binder.node) := by
  have hnone (ns' : List Node) : Ensures (r₀.Through (ns ++ ns')) (pure none)
      fun ps : Option (List Binder) => r₀.Through (ns ++ (ps.getD []).map Binder.node) :=
    .pure fun _ hr => (List.append_nil ns).symm ▸ hr.forget
  refine .upcoming fun t => .weaken (.ite (fun _ => ?_) fun _ => ?_) fun _ hr => hr.1
  · exact .advance (.pure fun _ hr => (List.append_nil ns).symm ▸ hr.through)
  · refine .require (.name (by decide) fun name => .rounds fun n => ?_)
      (.weaken (hnone []) fun _ hr => (List.append_nil ns).symm ▸ hr)
    refine (ensures_moreParameters n).bind fun rest => ?_
    split
    · rw [List.append_assoc]
      exact .require (.pure fun r hr => hr.1.through) (hnone _)
    · rw [List.append_assoc]
      exact hnone _

/-- Keys and their values as nodes. -/
abbrev pairNodes (pairs : List (Expr × Expr)) : List Node :=
  pairs.flatMap fun pair => [.expr pair.1, .expr pair.2]

/-- The keys and values of a hash lie in a row, each value behind its key. -/
theorem ensures_hashPairs (h : Places expr) (n : Nat) :
    Ensures (r₀.Through ns) (hashPairs expr n)
      fun ps => r₀.Through (ns ++ pairNodes (ps.getD [])) := by
  have hnone (ns ns' : List Node) : Ensures (r₀.Through (ns ++ ns')) (pure none)
      fun ps : Option (List (Expr × Expr)) => r₀.Through (ns ++ pairNodes (ps.getD [])) :=
    .pure fun _ hr => (List.append_nil ns).symm ▸ hr.forget
  induction n generalizing ns with
  | zero => exact .weaken (hnone ns []) fun _ hr => (List.append_nil ns).symm ▸ hr
  | succ n ih =>
      refine .upcoming fun t => .weaken (.ite (fun _ => ?_) fun _ => ?_) fun _ hr => hr.1
      · exact .pure fun _ hr => (List.append_nil ns).symm ▸ hr
      · refine .advance (h.lowest.bind fun key => .require (.next ?_) (hnone _ _))
        refine h.lowest.bind fun value => ?_
        rw [List.append_assoc]
        -- what follows the first pair, with and without a comma between
        have hmore {f : Option (List (Expr × Expr)) → Parse (Option (List (Expr × Expr)))}
            (hfSome : ∀ rest, f (some rest) = pure (some ((key, value) :: rest)))
            (hfNone : f none = pure none) :
            Ensures (r₀.Through (ns ++ [.expr key, .expr value])) (hashPairs expr n >>= f)
              fun ps => r₀.Through (ns ++ pairNodes (ps.getD [])) := by
          refine ih.bind fun rest => ?_
          rw [List.append_assoc]
          cases rest with
          | none => exact hfNone ▸ hnone _ _
          | some rest => exact hfSome rest ▸ .pure fun r hr => hr
        refine .upcoming fun next => .weaken (.ite (fun _ => ?_) fun _ => ?_) fun _ hr => hr.1
        · exact .require (.weaken (hmore (fun _ => rfl) rfl) fun _ hr => hr.1.through) (hnone _ _)
        · exact hmore (fun _ => rfl) rfl

/-- A token that is an expression by itself. -/
theorem builds_token (hr : r.Placed) (hk : r.current.kind ≠ .eof) {e : Expr}
    (hspan : e.span? = some r.current.span) (hchildren : (Node.expr e).children = []) :
    Builds (pure e) (fun e => [.expr e]) r := by
  have hstart : r.Before [] r := ⟨hr, .refl r, Int.le_refl _⟩
  exact hstart.token hk hspan hchildren

/-- A numeral lies where its token is, and if it is too large there is no node. -/
theorem builds_integer (hr : r.Placed) (hk : r.current.kind ≠ .eof) :
    Builds (integer r.current) (fun e => [.expr e]) r := by
  unfold integer
  dsimp only
  split
  · exact builds_token hr hk rfl rfl
  · exact .of_through hr (.note ensures_absent)

/-- A unary expression starts with its operator, and its operand lies behind that. -/
theorem builds_unaryExpression (h : Places expr) (hr : r.Placed) (hk : r.current.kind ≠ .eof)
    (op : UnaryOp) : Builds (unaryExpression expr op) (fun e => [.expr e]) r := by
  have hunary : Precedence.lowest ≤ .unary := by decide
  refine .current (.of_through hr (.advance ((h.above hunary).bind fun operand => ?_)))
  exact .close hk (fun _ => rfl) (fun _ => rfl) fun _ => rfl

/-- What is in parentheses lies between them, and the parentheses make no node. -/
theorem builds_grouped (h : Places expr) (hr : r.Placed) :
    Builds (grouped expr) (fun e => [.expr e]) r := by
  refine .of_through hr (.advance (h.lowest.bind fun inner => ?_))
  exact .require (.pure fun _ hr => hr.1.through) ensures_absent

/-- A conditional starts with its first word, and its test and blocks lie in a row behind that. -/
theorem builds_conditional (h : Places expr) (hr : r.Placed) (hk : r.current.kind ≠ .eof) :
    Builds (conditional expr) (fun e => [.expr e]) r := by
  refine .current (.of_through hr (.require (.next ?_) ensures_absent))
  refine h.lowest.bind fun test => .require (.weaken ?_ fun _ hr => hr.1.through) ensures_absent
  refine .require ((ensures_block h).bind fun consequence => .upcoming fun t => ?_) ensures_absent
  refine .weaken (.ite (fun _ => .advance (.weaken ?_ fun _ hr => hr.through)) fun _ => ?_)
    fun _ hr => hr.1
  · refine .require ((ensures_block h).bind fun alternative => ?_) ensures_absent
    exact .close hk (fun _ => rfl) (fun _ => rfl) fun _ => rfl
  · refine .weaken ?_ fun _ hr => hr.gap (n := .stmt (.block .absent)) rfl rfl
    exact .close hk (fun _ => rfl) (fun _ => rfl) fun _ => rfl

/-- A function starts with its first word, and its parameters and its body lie in a row behind
that. -/
theorem builds_functionLiteral (h : Places expr) (hr : r.Placed) (hk : r.current.kind ≠ .eof) :
    Builds (functionLiteral expr) (fun e => [.expr e]) r := by
  refine .current (.of_through hr (.require (.weaken ?_ fun _ hr => hr.1.through) ensures_absent))
  refine ensures_parameters.bind fun params => ?_
  split
  · exact ensures_absent
  · refine .require ((ensures_block h).bind fun body => ?_) ensures_absent
    exact .close hk (fun _ => rfl) (fun _ => rfl) fun _ => Node.children_fn _ _ _

theorem builds_arrayLiteral (h : Places expr) (hr : r.Placed) (hk : r.current.kind ≠ .eof) :
    Builds (arrayLiteral expr) (fun e => [.expr e]) r := by
  refine .current (.of_through hr ((ensures_expressionList h _).bind fun elements => ?_))
  split
  · exact ensures_absent
  · exact .close hk (fun _ => rfl) (fun _ => rfl) fun _ => rfl

theorem builds_hashLiteral (h : Places expr) (hr : r.Placed) (hk : r.current.kind ≠ .eof) :
    Builds (hashLiteral expr) (fun e => [.expr e]) r := by
  refine .current (.of_through hr (.rounds fun n => ?_))
  refine (ensures_hashPairs h _).bind fun pairs => ?_
  split
  · exact ensures_absent
  · refine .require (.weaken ?_ fun _ hr => hr.1.through) ensures_absent
    exact .close hk (fun _ => rfl) (fun _ => rfl) fun _ => rfl

/-- Whatever operand a token starts, reading it builds one expression. -/
theorem builds_operand (h : Places expr) (hr : r.Placed) {x : Parse Expr}
    (hx : operand expr r.current = some x) : Builds x (fun e => [.expr e]) r := by
  have hk : r.current.kind ≠ .eof := by
    intro heof
    rw [operand, heof] at hx
    cases hx
  unfold operand at hx
  split at hx <;> cases hx
  · exact builds_token hr hk rfl rfl
  · exact builds_integer hr hk
  · exact builds_token hr hk rfl rfl
  · exact builds_token hr hk rfl rfl
  · exact builds_token hr hk rfl rfl
  · exact builds_unaryExpression h hr hk _
  · exact builds_unaryExpression h hr hk _
  · exact builds_grouped h hr
  · exact builds_conditional h hr hk
  · exact builds_functionLiteral h hr hk
  · exact builds_arrayLiteral h hr hk
  · exact builds_hashLiteral h hr hk

/-- An operation builds a node around its left operand. -/
theorem ensures_operation (h : Places expr) {left : Expr} (hleft : r₀.Before [.expr left] r)
    (hbinds : Precedence.lowest < r.current.kind.precedence) :
    Ensures (r.Through []) (operation expr r.current left) fun e => r₀.Through [.expr e] := by
  have hk : r.current.kind ≠ .eof := by
    intro heof
    rw [heof] at hbinds
    exact absurd hbinds (Nat.lt_irrefl _)
  have habsent {ns : List Node} :
      Ensures (r.Through ns) (pure .absent) fun e => r₀.Through [.expr e] :=
    .pure fun _ hr => (hleft.append hr).absent
  have hclose {ns : List Node} {mk : Origin → Expr} (hspan : ∀ o, (mk o).span? = some o.span)
      (hchildren : ∀ o, (Node.expr (mk o)).children = .expr left :: ns) :
      Ensures (r.Through ns) (originAfter left r.current >>= fun o => pure (mk o))
        fun e => r₀.Through [.expr e] := by
    intro r' hr'
    show r₀.Through [.expr (mk ((originAfter left r.current).run r').1)]
      ((originAfter left r.current).run r').2
    rw [run_originAfter]
    exact hr'.closeAfter hleft hk (hspan _) (hchildren _)
  -- the left operand was read before the operator, so it is the first child
  unfold operation
  split
  · refine (ensures_expressionList h _).bind fun args => ?_
    split
    · exact habsent
    · exact hclose (fun _ => rfl) fun _ => rfl
  · refine .advance (h.lowest.bind fun index => .require ?_ habsent)
    exact .weaken (hclose (fun _ => rfl) fun _ => rfl) fun _ hr => hr.1.through
  · refine .advance ((h.above (Nat.le_of_lt hbinds)).bind fun right => ?_)
    exact hclose (fun _ => rfl) fun _ => rfl

/-- Operations on a left operand lie around it: each starts where the operand starts. The induction
is on the rounds that are left. -/
theorem ensures_operations (h : Places expr) {above : Precedence} (habove : .lowest ≤ above)
    (n : Nat) (left : Expr) : Ensures (r₀.Through [.expr left]) (operations expr above n left)
      fun e => r₀.Through [.expr e] := by
  induction n generalizing left with
  | zero => exact .pure fun _ hr => hr
  | succ n ih =>
      refine .upcoming fun t => .ite (fun hbinds => ?_) fun _ => .pure fun _ hr => hr.1
      rintro r ⟨hr, rfl⟩
      have hlowest : Precedence.lowest < r.advance.current.kind.precedence :=
        Nat.lt_of_le_of_lt habove hbinds
      have hoperation := ensures_operation h hr.advance hlowest
      exact (hoperation.bind ih) r.advance (.start hr.advance.here)

/-- Where there is no operand there is no node. -/
theorem builds_missingOperand (hr : r.Placed) : Builds missingOperand (fun e => [.expr e]) r :=
  .current (.of_through hr (.note ensures_absent))

/-- Reading an expression builds one. The induction is on the expressions inside one another. -/
theorem places_expression (n : Nat) : Places (expression n) := by
  induction n with
  | zero => exact fun _ _ r hr => builds_missingOperand hr
  | succ n ih =>
      intro above habove r hr
      refine .current ?_
      split
      · exact builds_missingOperand hr
      · rename_i first hfirst
        exact ensures_operations ih habove _ _ _ (builds_operand ih hr hfirst)

end Parse

/-! ## The tree of a source -/

/-- A token that is no end token has bytes of its own. -/
theorem Tiling.solid {p : Position} {text : Text} {ts : List Token} (h : Tiling p text ts) :
    ∀ t ∈ ts, t.kind ≠ .eof → t.span.start.offset < t.span.stop.offset := by
  induction h with
  | done hgap =>
      intro t ht hk
      exact absurd (congrArg Token.kind (List.mem_singleton.mp ht)) hk
  | @token p gap bytes rest t ts hgap hreads hspan hrest ih =>
      refine List.forall_mem_cons.mpr ⟨fun _ => ?_, ih⟩
      have hbytes := List.length_pos_iff.mpr hreads.ne_nil
      rw [hspan, Position.offset_after, Position.offset_after, List.length_append]
      omega

/-- The reader of a source is placed: its tokens follow one another. -/
theorem placed_ofTokens (source : Text) : (Reader.ofTokens (tokenize source)).Placed := by
  have htiling := tiling_tokenize source
  obtain ⟨inner, htokens, hinner⟩ := htiling.ends
  rw [htokens] at htiling ⊢
  rw [Reader.ofTokens_concat]
  refine ⟨rfl, rfl, ?_, htiling.increasing.2⟩
  intro t ht
  exact htiling.solid t (List.mem_append_left _ ht) (hinner t ht)

/-- The statements of a program lie in a row within it. -/
theorem lined_program (source : Text) :
    Lined (parse source).program.origin.span.start.offset
      (Node.program (parse source).program).children
      (parse source).program.origin.span.stop.offset := by
  have hstart : (Reader.ofTokens (tokenize source)).Before [] (.ofTokens (tokenize source)) :=
    ⟨placed_ofTokens source, .refl _, Int.le_refl _⟩
  have hplaces := Parse.places_expression ((Reader.ofTokens (tokenize source)).tokens.length + 1)
  have hstatements := Parse.ensures_statementsUntil hplaces none
    (Reader.ofTokens (tokenize source)).tokens.length _ hstart
  exact hstatements.through.nodes

/-- A law of reading for positions at which tokens start and stop. -/
def ReadingLaw.ofTokens (tokens : List Token) : ReadingLaw where
  token t := t ∈ tokens
  start p := ∃ i t, tokens[i]? = some t ∧ p = t.span.start
  stop p := ∃ i t, tokens[i]? = some t ∧ p = t.span.stop
  start_token ht := (List.mem_iff_getElem?.mp ht).imp fun _ hi => ⟨_, hi, rfl⟩
  stop_token ht := (List.mem_iff_getElem?.mp ht).imp fun _ hi => ⟨_, hi, rfl⟩

/-- Of tokens in a row, one that starts before another stops is it or comes before it. -/
theorem index_le {tokens : List Token}
    (h : tokens.Pairwise fun t u => t.span.stop.offset ≤ u.span.start.offset) {i j : Nat}
    {t u : Token} (hi : tokens[i]? = some t) (hj : tokens[j]? = some u)
    (hlt : t.span.start.offset < u.span.stop.offset) : i ≤ j := by
  refine Nat.le_of_not_lt fun hlater => ?_
  obtain ⟨hj', rfl⟩ := List.getElem?_eq_some_iff.mp hj
  obtain ⟨hi', rfl⟩ := List.getElem?_eq_some_iff.mp hi
  have hle := List.pairwise_iff_getElem.mp h j i hj' hi' hlater
  exact absurd hlt (Int.not_lt.mpr hle)

/-- A span is that of some tokens in a row. -/
def Span.OfTokens (tokens : List Token) (s : Span) : Prop :=
  ∃ (i j : Nat) (first last : Token), i ≤ j ∧ tokens[i]? = some first ∧ tokens[j]? = some last ∧
    s.start = first.span.start ∧ s.stop = last.span.stop

/-- **The spans of a tree nest.** In the tree of any source, well formed or not, the span of a node
starts where some token starts and stops where that one or a later one stops; the spans of the nodes
right below it lie within it; and those of them that are there stand in the order of the source and
do not overlap. -/
theorem spans_nest (source : Text) (n : Node)
    (hn : (Node.program (parse source).program).Contains n) :
    (∀ s ∈ n.span?, s.OfTokens (tokenize source) ∧
      ∀ child ∈ n.children, ∀ s' ∈ child.span?, s'.Within s) ∧
    (n.children.filterMap Node.span?).Pairwise Span.Precedes := by
  have htiling : Tiling .start source (tokenize source) := tiling_tokens (.ofSource source)
  have hlined := lined_program source
  have hspans : ∀ s ∈ n.span?, (ReadingLaw.ofTokens (tokenize source)).Spans s :=
    fun s hs => spans_of_contains _ (fun t ht => ht) hn hs
  cases hn with
  | self =>
      refine ⟨fun s hs => ?_, hlined.ordered⟩
      obtain ⟨-, j, last, hj, hstop⟩ := hspans s hs
      obtain rfl := Option.some.inj hs
      -- the program starts with the first token
      have hfirst : (tokenize source)[0]? = some (Reader.ofTokens (tokenize source)).current := by
        obtain ⟨inner, htokens, -⟩ := htiling.ends
        rw [htokens, Reader.ofTokens_concat]
        cases inner <;> rfl
      refine ⟨⟨0, j, _, last, Nat.zero_le _, hfirst, hj, rfl, hstop⟩, ?_⟩
      intro child hchild s' hs'
      obtain ⟨hlo, -, hhi⟩ := (hlined.fits child hchild).span s' hs'
      exact ⟨hlo, hhi⟩
  | step hchild hm =>
      have htidy := (hlined.fits _ hchild).tidy n hm
      refine ⟨fun s hs => ⟨?_, htidy.within s hs⟩, htidy.ordered⟩
      obtain ⟨⟨i, first, hi, hstart⟩, j, last, hj, hstop⟩ := hspans s hs
      have hsolid := htidy.solid s hs
      rw [hstart, hstop] at hsolid
      exact ⟨i, j, first, last, index_le htiling.increasing.2 hi hj hsolid, hi, hj, hstart, hstop⟩

/-- A let statement whose value lacks its right operand: the name and the value lie within it. -/
theorem spans_nest_gap :
    ∃ n : Node, (Node.program (parse (text "let x = a + )")).program).Contains n ∧
      n.span?.map (fun s => (s.start.offset, s.stop.offset)) = some (0, 13) ∧
      (n.children.filterMap Node.span?).map (fun s => (s.start.offset, s.stop.offset))
        = [(4, 5), (8, 13)] ∧
      (n.children.filterMap Node.span?).Pairwise Span.Precedes := by
  have hspans : (parse (text "let x = a + )")).program.statements.map (fun s =>
      ((Node.stmt s).span?.map fun s => (s.start.offset, s.stop.offset),
        ((Node.stmt s).children.filterMap Node.span?).map fun s => (s.start.offset, s.stop.offset)))
      = [(some (0, 13), [(4, 5), (8, 13)])] := by decide +kernel
  obtain ⟨s, hs, heq⟩ := List.map_eq_singleton_iff.mp hspans
  have hmem : s ∈ (parse (text "let x = a + )")).program.statements :=
    hs ▸ List.mem_singleton_self s
  have hn : (Node.program (parse (text "let x = a + )")).program).Contains (.stmt s) :=
    .step (List.mem_map_of_mem hmem) (.self _)
  obtain ⟨hspan, hchildren⟩ := Prod.mk.inj heq
  exact ⟨.stmt s, hn, hspan, hchildren, (spans_nest _ _ hn).2⟩

end Monkey
