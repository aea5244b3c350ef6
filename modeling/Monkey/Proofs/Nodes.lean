import Monkey.Proofs.Growth

/-!
# The nodes of a tree

A program, its statements, blocks and expressions, and the names that it binds are its nodes. Each
has the nodes right below it in the order of the source (`Node.children`), some of which may be
absent, and a tree contains what can be reached from one node to the next (`Node.Contains`). What
holds of a node and is handed down to the nodes right below holds of all that it contains
(`Node.Contains.of_closed`). So the trees that reading builds keep to a law of reading in every
node.
-/

namespace Monkey

/-- A name where it is bound is a node of its own, which is the name. -/
def Binder.node (b : Binder) : Node :=
  .expr (.ident b.origin b.name)

namespace Node

/-- The span of a node, if it is there. -/
def span? : Node → Option Span
  | .program p => some p.origin.span
  | .stmt s => s.origin?.map Origin.span
  | .expr e => e.span?

/-- The nodes right below a node, in the order of the source. -/
def children : Node → List Node
  | .program p => p.statements.map stmt
  | .stmt .absent | .stmt (.block .absent) => []
  | .stmt (.bind _ name value) => name.toList.map Binder.node ++ [.expr value]
  | .stmt (.ret _ value) | .stmt (.expr _ value) => [.expr value]
  | .stmt (.block (.of _ statements)) => statements.map stmt
  | .expr (.unary _ _ operand) => [.expr operand]
  | .expr (.binary _ _ left right) => [.expr left, .expr right]
  | .expr (.cond _ test consequence alternative) =>
    [.expr test, .stmt (.block consequence), .stmt (.block alternative)]
  | .expr (.fn _ params body) => (params.filterMap id).map Binder.node ++ [.stmt (.block body)]
  | .expr (.call _ callee args) => .expr callee :: args.map expr
  | .expr (.array _ elements) => elements.map expr
  | .expr (.index _ left index) => [.expr left, .expr index]
  | .expr (.hash _ pairs) => pairs.flatMap fun pair => [.expr pair.1, .expr pair.2]
  | .expr .absent | .expr .nameless | .expr (.foreign _) | .expr (.ident _ _)
  | .expr (.int _ _) | .expr (.bool _ _) | .expr (.str _ _) => []

/-- If no parameter is missing, all of them are nodes below a function. -/
theorem children_fn (o : Origin) (params : List Binder) (body : Block) :
    (expr (.fn o (params.map some) body)).children =
      params.map Binder.node ++ [.stmt (.block body)] := by
  rw [children, List.filterMap_map, Function.id_comp, List.filterMap_some]

/-- One node is another, or has it somewhere below. -/
inductive Contains : Node → Node → Prop where
  | self (n : Node) : Contains n n
  | step {n child m : Node} (hchild : child ∈ n.children) (h : Contains child m) : Contains n m

/-- What is handed down to the nodes right below holds of all that a node contains. -/
theorem Contains.of_closed {P : Node → Prop} (hclosed : ∀ n, P n → ∀ child ∈ n.children, P child)
    {n m : Node} (h : n.Contains m) (hn : P n) : P m := by
  induction h with
  | self n => exact hn
  | step hchild _ ih => exact ih (hclosed _ hn _ hchild)

/-! ## Nodes that reading builds -/

variable {L : ReadingLaw}

/-- A node is of the kind that reading builds, with spans that keep to a law. -/
def Grown (L : ReadingLaw) : Node → Prop
  | .program p => p.Grown L
  | .stmt (.block block) => block.Grown L
  | .stmt s => s.Grown L
  | .expr e => e.Grown L

theorem grown_statements {statements : List Stmt} (h : statementsGrown L statements) :
    ∀ s ∈ statements, (Node.stmt s).Grown L := by
  induction statements with
  | nil => exact List.forall_mem_nil _
  | cons s rest ih =>
      refine List.forall_mem_cons.mpr ⟨?_, ih h.2⟩
      cases s with
      | block _ => exact h.1.elim
      | _ => exact h.1

theorem grown_exprs {exprs : List Expr} (h : exprsGrown L exprs) : ∀ e ∈ exprs, e.Grown L := by
  induction exprs with
  | nil => exact List.forall_mem_nil _
  | cons e rest ih => exact List.forall_mem_cons.mpr ⟨h.1, ih h.2⟩

theorem grown_pairs {pairs : List (Expr × Expr)} (h : pairsGrown L pairs) :
    ∀ p ∈ pairs, p.1.Grown L ∧ p.2.Grown L := by
  induction pairs with
  | nil => exact List.forall_mem_nil _
  | cons p rest ih => exact List.forall_mem_cons.mpr ⟨⟨h.1, h.2.1⟩, ih h.2.2⟩

/-- The nodes right below one that reading builds are such, too. -/
theorem Grown.children {n : Node} (h : n.Grown L) : ∀ child ∈ n.children, child.Grown L := by
  cases n with
  | program p => exact List.forall_mem_map.mpr (grown_statements h.2)
  | stmt s =>
      cases s with
      | absent => exact h.elim
      | bind o name value =>
          cases name with
          | none => exact h.elim
          | some name => exact List.forall_mem_cons.mpr ⟨h.2.1, List.forall_mem_singleton.mpr h.2.2⟩
      | ret o value => exact List.forall_mem_singleton.mpr h.2
      | expr o value => exact List.forall_mem_singleton.mpr h.2
      | block block =>
          cases block with
          | absent => exact List.forall_mem_nil _
          | of o statements => exact List.forall_mem_map.mpr (grown_statements h.2)
  | expr e =>
      cases e with
      | unary o op operand => exact List.forall_mem_singleton.mpr h.2.2
      | binary o op left right =>
          exact List.forall_mem_cons.mpr ⟨h.2.2.1, List.forall_mem_singleton.mpr h.2.2.2⟩
      | cond o test consequence alternative =>
          obtain ⟨-, htest, hconsequence, halternative⟩ := h
          exact List.forall_mem_cons.mpr ⟨htest, List.forall_mem_cons.mpr
            ⟨hconsequence, List.forall_mem_singleton.mpr halternative⟩⟩
      -- a parameter that is missing is no child
      | fn o params body =>
          refine List.forall_mem_append.mpr ⟨?_, List.forall_mem_singleton.mpr h.2.2⟩
          refine List.forall_mem_map.mpr fun p hp => h.2.1 (some p) ?_
          obtain ⟨q, hq, rfl⟩ := List.mem_filterMap.mp hp
          exact hq
      | call o callee args =>
          exact List.forall_mem_cons.mpr ⟨h.2.1, List.forall_mem_map.mpr (grown_exprs h.2.2)⟩
      | array o elements => exact List.forall_mem_map.mpr (grown_exprs h.2)
      | index o left index =>
          exact List.forall_mem_cons.mpr ⟨h.2.1, List.forall_mem_singleton.mpr h.2.2⟩
      | hash o pairs =>
          intro child hchild
          obtain ⟨pair, hpair, hchild⟩ := List.mem_flatMap.mp hchild
          obtain ⟨hkey, hvalue⟩ := grown_pairs h.2 pair hpair
          rcases List.mem_cons.mp hchild with rfl | hchild
          · exact hkey
          · obtain rfl := List.mem_singleton.mp hchild
            exact hvalue
      | _ => exact List.forall_mem_nil _

/-- The span of a node that reading builds keeps to the law. -/
theorem Grown.spans {n : Node} (h : n.Grown L) {s : Span} (hs : n.span? = some s) : L.Spans s := by
  cases n with
  | program p => cases hs; exact h.1
  | stmt stmt =>
      cases stmt with
      | absent => cases hs
      | bind o name value =>
          cases name with
          | none => exact h.elim
          | some name => cases hs; exact h.1
      | ret o value | expr o value => cases hs; exact h.1
      | block block =>
          cases block with
          | absent => cases hs
          | of o statements => cases hs; exact h.1
  | expr e => exact Expr.Grown.spans h hs

end Node

/-- Every node of the tree of a source keeps to the laws that the tokens keep to. -/
theorem spans_of_contains (L : ReadingLaw) {source : Text} (h : ∀ t ∈ tokenize source, L.token t)
    {n : Node} (hn : (Node.program (parse source).program).Contains n) {s : Span}
    (hs : n.span? = some s) : L.Spans s := by
  have hgrown : n.Grown L := hn.of_closed (fun _ hm => hm.children) (grown_parse L h).1
  exact hgrown.spans hs

end Monkey
