import Mathlib.Data.List.Basic
import ProgramDependence.Labelling.Tree
import ProgramDependence.Proofs.Text.Lines

/-! The one-line form determines the tree, as long as no label has a comma. Cut at the commas, the line is
the list of nodes, depth first. Cut at its first colon, a piece is a number and a label, whatever the label looks
like. The numbers of children then say where each tree ends, so no brackets are needed. -/
namespace ProgramDependence.Tree

mutual

/-- The nodes depth first, each as its number of children and its label. -/
def nodes : Tree → List (Nat × String)
  | .node label kids => (kids.length, label) :: nodesOf kids

def nodesOf : List Tree → List (Nat × String)
  | [] => []
  | t :: ts => t.nodes ++ nodesOf ts

end

/-- No label has a comma in it. -/
def CommaFree (t : Tree) : Prop := ∀ node ∈ t.nodes, ',' ∉ node.2.toList

/-! ### The nodes determine the trees -/

mutual

/-- What follows the nodes of a tree plays no part in reading it: the tree is over when all children are. -/
theorem nodes_append_inj (t u : Tree) {rest rest' : List (Nat × String)}
    (same : t.nodes ++ rest = u.nodes ++ rest') : t = u ∧ rest = rest' := by
  match t, u with
  | .node label kids, .node label' kids' =>
    simp only [nodes, List.cons_append, List.cons.injEq, Prod.mk.injEq] at same
    obtain ⟨⟨count, rfl⟩, below⟩ := same
    obtain ⟨rfl, after⟩ := nodesOf_append_inj kids kids' count below
    exact ⟨rfl, after⟩

theorem nodesOf_append_inj (ts us : List Tree) {rest rest' : List (Nat × String)}
    (count : ts.length = us.length) (same : nodesOf ts ++ rest = nodesOf us ++ rest') :
    ts = us ∧ rest = rest' := by
  match ts, us with
  | [], [] => exact ⟨rfl, same⟩
  | t :: ts, u :: us =>
    simp only [nodesOf, List.append_assoc] at same
    obtain ⟨rfl, later⟩ := nodes_append_inj t u same
    obtain ⟨rfl, after⟩ := nodesOf_append_inj ts us (Nat.succ.inj count) later
    exact ⟨rfl, after⟩

end

theorem nodesOf_cons_ne_nil (t : Tree) (ts : List Tree) : nodesOf (t :: ts) ≠ [] := by
  cases t
  exact List.cons_ne_nil _ _

/-- Where nothing follows, not even the number of trees has to be known. -/
theorem nodesOf_inj {ts us : List Tree} (same : nodesOf ts = nodesOf us) : ts = us := by
  induction ts generalizing us with
  | nil =>
    cases us with
    | nil => rfl
    | cons u us => exact absurd same.symm (nodesOf_cons_ne_nil u us)
  | cons t ts ih =>
    cases us with
    | nil => exact absurd same (nodesOf_cons_ne_nil t ts)
    | cons u us =>
      obtain ⟨rfl, later⟩ := nodes_append_inj t u same
      rw [ih later]

/-! ### The line determines the nodes -/

/-- A node in the line: its number of children, a colon and its label. -/
def nodeText (node : Nat × String) : String := s!"{node.1}:" ++ node.2

theorem nodeText_toList (node : Nat × String) :
    (nodeText node).toList = Nat.toDigits 10 node.1 ++ ':' :: node.2.toList := by
  have colon : (toString ":").toList = [':'] := rfl
  simp [nodeText, Nat.toString_eq_repr, Nat.toList_repr, colon]

theorem notMem_toDigits {c : Char} (n : Nat) (other : c.isDigit = false) : c ∉ Nat.toDigits 10 n := by
  intro member
  have digit := Nat.isDigit_of_mem_toDigits (by decide) (by decide) member
  rw [other] at digit
  cases digit

/-- The first colon ends the number, so a label may have colons of its own. -/
theorem nodeText_injective : Function.Injective nodeText := by
  intro node node' same
  have cut (x : Nat × String) : Text.cutAt ':' (nodeText x).toList =
      some (Nat.toDigits 10 x.1, x.2.toList) := by
    rw [nodeText_toList]
    exact Text.cutAt_append _ _ (notMem_toDigits x.1 (by decide))
  have parts := (cut node).symm.trans (same ▸ cut node')
  simp only [Option.some.injEq, Prod.mk.injEq, String.toList_inj] at parts
  obtain ⟨digits, label⟩ := parts
  have count : node.1 = node'.1 := by
    rw [← Nat.ofDigitChars_ten_toDigits (n := node.1), digits, Nat.ofDigitChars_ten_toDigits]
  exact Prod.ext count label

theorem intercalate_cons (sep first : String) (rest : List String) :
    sep.intercalate (first :: rest) = first ++ String.join (rest.map (sep ++ ·)) := by
  induction rest generalizing first with
  | nil => simp
  | cons next rest ih =>
    rw [String.intercalate_cons_cons, ih, List.map_cons, String.join_cons]
    simp only [String.append_assoc]

theorem render_node (label : String) (kids : List Tree) :
    (Tree.node label kids).render = nodeText (kids.length, label) ++ renderKids kids := rfl

/-- Children are written as their nodes, each after a comma. -/
theorem renderKids_nodes (ts : List Tree) :
    renderKids ts = String.join (((nodesOf ts).map nodeText).map ("," ++ ·)) := by
  match ts with
  | [] => rfl
  | .node label kids :: ts =>
    simp only [renderKids, render_node, renderKids_nodes kids, renderKids_nodes ts, nodesOf, nodes,
      List.map_append, List.map_cons, List.cons_append, String.join_cons, String.join_append,
      String.append_assoc]

theorem renderKids_join (ts : List Tree) : renderKids ts = String.join ((ts.map render).map ("," ++ ·)) := by
  induction ts with
  | nil => rfl
  | cons t ts ih => rw [renderKids, ih, List.map_cons, List.map_cons, String.join_cons]

/-- Trees side by side are written as their nodes side by side. -/
theorem intercalate_render (ts : List Tree) :
    ",".intercalate (ts.map render) = ",".intercalate ((nodesOf ts).map nodeText) := by
  match ts with
  | [] => rfl
  | .node label kids :: ts =>
    simp only [nodesOf, nodes, List.map_cons, List.cons_append, intercalate_cons, render_node,
      ← renderKids_join, renderKids_nodes, List.map_append, String.join_append, String.append_assoc]

/-- The pieces of a line between its commas. An empty line has none. -/
def pieces (line : String) : List (List Char) := if line.toList = [] then [] else line.toList.splitOn ','

theorem pieces_intercalate {ns : List (Nat × String)} (commaFree : ∀ node ∈ ns, ',' ∉ node.2.toList) :
    pieces (",".intercalate (ns.map nodeText)) = ns.map fun node => (nodeText node).toList := by
  have clean : ∀ text ∈ ns.map (fun node => (nodeText node).toList), ',' ∉ text := by
    intro text member
    obtain ⟨node, among, rfl⟩ := List.mem_map.mp member
    rw [nodeText_toList, List.mem_append, List.mem_cons, not_or, not_or]
    exact ⟨notMem_toDigits node.1 (by decide), by decide, commaFree node among⟩
  have line : (",".intercalate (ns.map nodeText)).toList =
      [','].intercalate (ns.map fun node => (nodeText node).toList) := by
    rw [String.toList_intercalate, List.map_map]
    rfl
  rw [pieces, line]
  cases ns with
  | nil => rfl
  | cons node ns =>
    have some : (nodeText node).toList ≠ [] := by simp [nodeText_toList]
    rw [List.map_cons, if_neg (Text.intercalate_ne_nil some _)]
    exact List.splitOn_intercalate _ clean (List.cons_ne_nil _ _)

theorem mem_nodesOf {ts : List Tree} {node : Nat × String} :
    node ∈ nodesOf ts ↔ ∃ t ∈ ts, node ∈ t.nodes := by
  induction ts with
  | nil => simp [nodesOf]
  | cons t ts ih => simp [nodesOf, ih]

theorem trees_of_line {ts us : List Tree} (free : ∀ t ∈ ts, t.CommaFree) (free' : ∀ u ∈ us, u.CommaFree)
    (same : ",".intercalate (ts.map render) = ",".intercalate (us.map render)) : ts = us := by
  have commaFree {ts : List Tree} (free : ∀ t ∈ ts, t.CommaFree) : ∀ node ∈ nodesOf ts, ',' ∉ node.2.toList := by
    intro node member
    obtain ⟨t, among, inside⟩ := mem_nodesOf.mp member
    exact free t among node inside
  have texts := congrArg pieces same
  rw [intercalate_render, intercalate_render, pieces_intercalate (commaFree free),
    pieces_intercalate (commaFree free')] at texts
  apply nodesOf_inj
  refine List.map_injective_iff.mpr ?_ texts
  exact fun node node' same => nodeText_injective (String.toList_inj.mp same)

/-- Different trees without a comma in their labels have different lines, and so have different lists of
such trees, their lines joined by commas, however many trees there are. -/
theorem render_unambiguous :
    (∀ t u : Tree, t.CommaFree → u.CommaFree → t.render = u.render → t = u) ∧
    ∀ ts us : List Tree, (∀ t ∈ ts, t.CommaFree) → (∀ u ∈ us, u.CommaFree) →
      ",".intercalate (ts.map render) = ",".intercalate (us.map render) → ts = us := by
  refine ⟨fun t u free free' same => ?_, fun ts us free free' same => trees_of_line free free' same⟩
  have alone : ",".intercalate ([t].map render) = ",".intercalate ([u].map render) := by
    simp only [List.map_singleton, String.intercalate_singleton, same]
  exact List.singleton_injective (trees_of_line (by simpa using free) (by simpa using free') alone)

/-- Labels that look like nodes, and one that is empty. -/
def disguised : Tree := .node "1:x" [.leaf "", .node "0:" [.leaf "2:;"]]

theorem disguised_unambiguous : disguised.CommaFree ∧ disguised.render = "2:1:x,0:,1:0:,0:2:;" ∧
    (∀ u : Tree, u.CommaFree → u.render = "2:1:x,0:,1:0:,0:2:;" → u = disguised) ∧
    ∀ us : List Tree, (∀ u ∈ us, u.CommaFree) →
      ",".intercalate (us.map render) = "2:1:x,0:,1:0:,0:2:;,0:" → us = [disguised, .leaf ""] := by
  have free : disguised.CommaFree := by
    simp [CommaFree, disguised, nodes, nodesOf, leaf]
  have line : disguised.render = "2:1:x,0:,1:0:,0:2:;" := rfl
  refine ⟨free, line, fun u free' same => ?_, fun us free' same => ?_⟩
  · exact render_unambiguous.1 u disguised free' free same
  · have both : ∀ t ∈ [disguised, .leaf ""], t.CommaFree := by
      refine List.forall_mem_cons.mpr ⟨free, ?_⟩
      simp [CommaFree, leaf, nodes, nodesOf]
    exact render_unambiguous.2 us _ free' both same

-- a comma in a label moves a child
example : (Tree.node "x,0:b" [.leaf "a"]).render = (Tree.node "x" [.leaf "b,0:a"]).render := by rfl

end ProgramDependence.Tree
