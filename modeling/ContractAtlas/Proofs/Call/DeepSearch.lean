import ContractAtlas.Proofs.Call.CallGraph
import Mathlib.Logic.Relation

/-! The search through all that a function reaches by calls. The visited names are shared by all
branches of the recursion and no name is ever taken back, so a branch that comes to a visited name
relies on another one, which need not be done with it yet. The search is complete since in the end
every visited name has been gone through. -/
namespace ContractAtlas

namespace Function
variable {all : List Function} {start f g : Function} {place : Option Nat} {name : String}
  {visited : List String} {property : Function → Bool}

/-! ### The function that a called name leads to -/

/-- The function behind the name has not the property, and all functions that it calls are
visited. -/
def Settled (all : List Function) (start : Function) (property : Function → Bool)
    (visited : List String) (name : String) : Prop :=
  ∀ g, standsFor? all start name = some g → property g = false ∧
    ∀ called, g.Calls called → (standsFor? all start called).isSome = true → called ∈ visited

theorem Settled.mono {visited' : List String} (h : Settled all start property visited name)
    (hsubset : visited ⊆ visited') : Settled all start property visited' name := by
  intro g hg
  obtain ⟨hproperty, hcalled⟩ := h g hg
  exact ⟨hproperty, fun called hcalls hsome => hsubset (hcalled called hcalls hsome)⟩

/-- A search from some names, on the way from `start`: if it succeeds, one of the names leads to a
function with the property. If it fails, the names are visited as far as they stand for functions,
and all names that it has visited are settled. -/
structure Searched (all : List Function) (start : Function) (property : Function → Bool)
    (visited names : List String) (result : Bool × List String) : Prop where
  grows : visited ⊆ result.2
  found : result.1 = true → ∃ root ∈ names, ∃ name g,
    Relation.ReflTransGen (Leads all start) root name ∧ standsFor? all start name = some g ∧
      property g = true
  visits : result.1 = false → ∀ root ∈ names, (standsFor? all start root).isSome = true →
    root ∈ result.2
  settles : result.1 = false → ∀ name ∈ result.2, name ∉ visited →
    Settled all start property result.2 name

/-- A search goes on where the search before it has failed. -/
theorem Searched.cons {names visited' : List String} {result : Bool × List String}
    (hfirst : Searched all start property visited [name] (false, visited'))
    (hrest : Searched all start property visited' names result) :
    Searched all start property visited (name :: names) result where
  grows := List.Subset.trans hfirst.grows hrest.grows
  found hfound := by
    obtain ⟨root, hroot, hreached⟩ := hrest.found hfound
    exact ⟨root, List.mem_cons_of_mem _ hroot, hreached⟩
  visits hfailed := by
    refine List.forall_mem_cons.2 ⟨fun hsome => ?_, hrest.visits hfailed⟩
    exact hrest.grows (hfirst.visits rfl name (List.mem_singleton_self name) hsome)
  settles hfailed n hn hnew := by
    by_cases hmiddle : n ∈ visited'
    · exact (hfirst.settles rfl n hmiddle hnew).mono hrest.grows
    · exact hrest.settles hfailed n hn hmiddle

end Function

namespace Sample

end Sample

end ContractAtlas
