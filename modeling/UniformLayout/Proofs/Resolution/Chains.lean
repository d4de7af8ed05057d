import UniformLayout.Declaration
import Mathlib.Data.List.Chain
import Mathlib.Data.List.Nodup
import Mathlib.Logic.Relation
import Mathlib.Order.Bounds.Basic

/-!
# Dependency chains

The declarations of a unit form a graph: `Uses` leads from a name to the names of the unit that its
fields use. `LongestChain` measures how far the chains from a name go, and `ReachesCycle` says that
some of them never end.

* `below_succ_iff`: how the chains from a name come from the chains one link further on.
* `not_below_of_reachesCycle`, `reachesCycle_of_hasChain`: the chains of a name have a bound exactly
  when no path from it runs into a cycle.
-/

namespace UniformLayout

open Relation

/-- The names that are declared, in source order. -/
def declaredNames (decls : List TypeDeclaration) : List String :=
  decls.map TypeDeclaration.name

@[simp] theorem declaredNames_nil : declaredNames [] = [] := rfl

@[simp] theorem declaredNames_cons (decl : TypeDeclaration) (rest : List TypeDeclaration) :
    declaredNames (decl :: rest) = decl.name :: declaredNames rest := rfl

@[simp] theorem declaredNames_append (first second : List TypeDeclaration) :
    declaredNames (first ++ second) = declaredNames first ++ declaredNames second :=
  List.map_append

/-- A declaration has a field whose type is another declaration, or itself. -/
def Uses (decls : List TypeDeclaration) (name other : String) : Prop :=
  other ∈ declaredNames decls ∧ ∃ decl ∈ decls, decl.name = name ∧ other ∈ decl.dependencies

/-- A dependency chain of `links` links starts at the name. -/
def HasChain (decls : List TypeDeclaration) (name : String) (links : Nat) : Prop :=
  ∃ chain : List String, chain.length = links ∧ (name :: chain).IsChain (Uses decls)

/-- The number of links of the longest dependency chain from the name. -/
def LongestChain (decls : List TypeDeclaration) (name : String) (links : Nat) : Prop :=
  IsGreatest {k | HasChain decls name k} links

/-- Some dependency path from the name runs into a cycle. -/
def ReachesCycle (decls : List TypeDeclaration) (name : String) : Prop :=
  ∃ other, ReflTransGen (Uses decls) name other ∧ TransGen (Uses decls) other other

/-- Every chain from the name has fewer links. -/
def Below (decls : List TypeDeclaration) (links : Nat) (name : String) : Prop :=
  ∀ k, HasChain decls name k → k < links

section Graph

variable {decls : List TypeDeclaration} {name other : String} {links : Nat}

theorem hasChain_zero (decls : List TypeDeclaration) (name : String) : HasChain decls name 0 :=
  ⟨[], rfl, List.isChain_singleton name⟩

theorem hasChain_succ_iff :
    HasChain decls name (links + 1) ↔ ∃ next, Uses decls name next ∧ HasChain decls next links := by
  constructor
  · rintro ⟨chain, hlength, hchain⟩
    cases chain with
    | nil => cases hlength
    | cons next rest =>
      obtain ⟨huses, hrest⟩ := List.isChain_cons_cons.1 hchain
      exact ⟨next, huses, rest, Nat.succ.inj hlength, hrest⟩
  · rintro ⟨next, huses, rest, rfl, hrest⟩
    exact ⟨next :: rest, rfl, List.isChain_cons_cons.2 ⟨huses, hrest⟩⟩

theorem not_below_zero (decls : List TypeDeclaration) (name : String) : ¬ Below decls 0 name :=
  fun h => absurd (h 0 (hasChain_zero decls name)) (Nat.lt_irrefl 0)

/-- The chains from a name are one link longer than those from the names that it uses. -/
theorem below_succ_iff :
    Below decls (links + 1) name ↔ ∀ next, Uses decls name next → Below decls links next := by
  constructor
  · intro h next huses k hk
    exact Nat.lt_of_succ_lt_succ (h (k + 1) (hasChain_succ_iff.2 ⟨next, huses, hk⟩))
  · intro h k hk
    cases k with
    | zero => exact Nat.succ_pos links
    | succ k =>
      obtain ⟨next, huses, hnext⟩ := hasChain_succ_iff.1 hk
      exact Nat.succ_lt_succ (h next huses k hnext)

theorem Below.succ (h : Below decls links name) : Below decls (links + 1) name :=
  fun k hk => Nat.lt_succ_of_lt (h k hk)

/-- A chain can be cut anywhere. -/
theorem HasChain.of_le {k : Nat} (h : HasChain decls name links) (hk : k ≤ links) :
    HasChain decls name k := by
  obtain ⟨chain, rfl, hchain⟩ := h
  exact ⟨chain.take k, List.length_take_of_le hk, hchain.take (k + 1)⟩

/-- The longest chain has `links` links when they are fewer than `links + 1`, but not fewer than
`links`. -/
theorem longestChain_iff :
    LongestChain decls name links ↔ ¬ Below decls links name ∧ Below decls (links + 1) name := by
  constructor
  · rintro ⟨hchain, hmax⟩
    refine ⟨fun h => Nat.lt_irrefl _ (h links hchain), fun k hk => ?_⟩
    exact Nat.lt_succ_of_le (hmax hk)
  · rintro ⟨hnot, hbelow⟩
    refine ⟨?_, fun k hk => Nat.le_of_lt_succ (hbelow k hk)⟩
    unfold Below at hnot
    push Not at hnot
    obtain ⟨k, hk, hle⟩ := hnot
    exact hk.of_le hle

theorem Uses.declared (h : Uses decls name other) : name ∈ declaredNames decls := by
  obtain ⟨-, decl, hm, rfl, -⟩ := h
  exact List.mem_map_of_mem hm

theorem ReachesCycle.next (h : ReachesCycle decls name) :
    ∃ next, Uses decls name next ∧ ReachesCycle decls next := by
  obtain ⟨other, hpath, hcycle⟩ := h
  rcases ReflTransGen.cases_head hpath with rfl | ⟨next, huses, hrest⟩
  · obtain ⟨next, huses, hback⟩ := TransGen.head'_iff.1 hcycle
    exact ⟨next, huses, name, hback, hcycle⟩
  · exact ⟨next, huses, other, hrest, hcycle⟩

/-- Along a cycle chains do not end. -/
theorem not_below_of_reachesCycle (h : ReachesCycle decls name) : ¬ Below decls links name := by
  induction links generalizing name with
  | zero => exact not_below_zero decls name
  | succ links ih =>
    obtain ⟨next, huses, hnext⟩ := h.next
    exact fun hb => ih hnext (below_succ_iff.1 hb next huses)

/-- A chain that is longer than there are declarations passes a name twice. -/
theorem reachesCycle_of_hasChain (h : HasChain decls name (decls.length + 1)) :
    ReachesCycle decls name := by
  obtain ⟨chain, hlength, hchain⟩ := h
  have hpaths : (name :: chain).Pairwise (TransGen (Uses decls)) :=
    List.isChain_iff_pairwise.1 (hchain.imp fun _ _ => TransGen.single)
  obtain ⟨hfrom, hrest⟩ := List.pairwise_cons.1 hpaths
  by_contra hnone
  have hnodup : chain.Nodup := by
    refine hrest.imp_of_mem ?_
    rintro a b ha - hab rfl
    exact hnone ⟨a, (hfrom a ha).to_reflTransGen, hab⟩
  have hdeclared : chain ⊆ declaredNames decls := by
    intro a ha
    obtain ⟨b, -, hb⟩ := TransGen.tail'_iff.1 (hfrom a ha)
    exact hb.1
  have hle := hnodup.length_le_of_subset hdeclared
  rw [declaredNames, List.length_map] at hle
  omega

end Graph

end UniformLayout
