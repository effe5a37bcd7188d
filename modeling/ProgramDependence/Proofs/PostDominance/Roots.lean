import Mathlib.Data.Finset.Card
import ProgramDependence.Proofs.PostDominance.Frontier

/-! Where control dependence starts. Followed backward it ends at nodes that every way out of the start goes
through. Such a node either depends on no other node, or it depends on itself through another one: a loop
with two ways out of it is entered without a decision, and yet each of its branches decides on the other. -/
namespace ProgramDependence.Digraph

open Relation (ReflTransGen)

variable {g : Digraph} {start s x y z : Nat}

/-- From one node to the next. -/
def Next (g : Digraph) (x y : Nat) : Prop := y ∈ g.succs x

/-- Whatever is above `y` is above a node that decides on `y`, or is decided on with it. -/
theorem Governs.above (governs : g.Governs x y) (dominates : g.PostDominates s y) :
    g.PostDominates s x ∨ g.Governs x s := by
  by_cases already : g.PostDominates s x
  · exact .inl already
  · obtain ⟨⟨t, edge, free, toward⟩, _⟩ := governs
    obtain ⟨path, avoids⟩ := not_forall.mp already
    have around : ∃ path, g.ExitPath x path ∧ s ∉ path := ⟨path, Classical.not_imp.mp avoids⟩
    exact .inr ⟨⟨t, edge, free, dominates.trans toward⟩, .inr around⟩

theorem governed_above (chain : ReflTransGen g.Governs z y) (dominates : g.PostDominates s y) :
    g.PostDominates s z ∨ ReflTransGen g.Governs z s := by
  induction chain with
  | refl => exact .inl dominates
  | tail chain governs ih =>
    rcases governs.above dominates with higher | decides
    · exact ih higher
    · exact .inr (chain.tail decides)

/-- The target of an edge is decided on at its source unless it is above it. -/
theorem governs_of_edge (edge : g.Next x y) (free : ¬g.Stuck y) (notAbove : ¬g.PostDominates y x) :
    g.Governs x y := by
  obtain ⟨path, avoids⟩ := not_forall.mp notAbove
  exact ⟨⟨y, edge, free, .refl g y⟩, .inr ⟨path, Classical.not_imp.mp avoids⟩⟩

/-- What is reachable is control dependent on a node that post-dominates the start. -/
theorem exists_root (way : ReflTransGen g.Next start y)
    (free : ∀ b, ReflTransGen g.Next start b → ¬g.Stuck b) :
    ∃ z, g.PostDominates z start ∧ ReflTransGen g.Governs z y := by
  induction way with
  | refl => exact ⟨start, .refl g start, .refl⟩
  | @tail x y way edge ih =>
    obtain ⟨z, root, chain⟩ := ih
    by_cases above : g.PostDominates y x
    · rcases governed_above chain above with higher | chain
      · exact ⟨y, higher.trans root, .refl⟩
      · exact ⟨z, root, chain⟩
    · exact ⟨z, root, chain.tail (governs_of_edge edge (free y (way.tail edge)) above)⟩

/-- Nothing else decides on the node. -/
def Alone (g : Digraph) (y : Nat) : Prop := ∀ x, g.Governs x y → x = y

/-- The node decides, through another one, on itself. -/
def Circular (g : Digraph) (z : Nat) : Prop :=
  ∃ x, x ≠ z ∧ ReflTransGen g.Governs z x ∧ g.Governs x z

open Classical in
/-- The nodes that a node depends on, itself included. -/
noncomputable def ancestors (g : Digraph) (z : Nat) : Finset Nat :=
  (Finset.range g.size).filter fun w => ReflTransGen g.Governs w z

theorem ancestors_ssubset (bound : z < g.size) (chain : ReflTransGen g.Governs y z)
    (oneWay : ¬ReflTransGen g.Governs z y) : g.ancestors y ⊂ g.ancestors z := by
  apply Finset.ssubset_iff_of_subset _ |>.mpr
  · exact ⟨z, by simp [ancestors, bound, ReflTransGen.refl], by simp [ancestors, oneWay]⟩
  · intro w member
    simp only [ancestors, Finset.mem_filter] at member ⊢
    exact ⟨member.1, member.2.trans chain⟩

theorem Governs.lt (governs : g.Governs x y) : x < g.size := by
  obtain ⟨⟨_, edge, _⟩, _⟩ := governs
  exact lt_of_mem_succs edge

/-- A node that post-dominates the start is control dependent on one that depends on nothing else, or on
one that depends on itself through another. -/
theorem alone_or_circular (entered : ∀ b < g.size, ReflTransGen g.Next start b)
    (free : ∀ b, ReflTransGen g.Next start b → ¬g.Stuck b) (root : g.PostDominates z start) :
    ∃ w, g.PostDominates w start ∧ ReflTransGen g.Governs w z ∧ (g.Alone w ∨ g.Circular w) := by
  -- backward over dependences the ancestors get fewer, unless a node is met again
  induction count : (g.ancestors z).card using Nat.strongRecOn generalizing z with
  | _ n ih =>
    subst count
    by_cases alone : g.Alone z
    · exact ⟨z, root, .refl, .inl alone⟩
    · obtain ⟨x, notAlone⟩ := not_forall.mp alone
      obtain ⟨governs, differs⟩ := Classical.not_imp.mp notAlone
      obtain ⟨y, above, chain⟩ := exists_root (entered x governs.lt) free
      by_cases back : ReflTransGen g.Governs z y
      · exact ⟨z, root, .refl, .inr ⟨x, differs, back.trans chain, governs⟩⟩
      · have bound : z < g.size := lt_of_not_stuck (root.not_stuck (free start .refl))
        have fewer := Finset.card_lt_card (ancestors_ssubset bound (chain.tail governs) back)
        obtain ⟨w, higher, rest, cause⟩ := ih _ fewer above rfl
        exact ⟨w, higher, rest.trans (chain.tail governs), cause⟩

end ProgramDependence.Digraph
