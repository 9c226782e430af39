import ContractAtlas.Proofs.Call.CallGraph
import ContractAtlas.Proofs.Reach
import ContractAtlas.Symbol.Chain
import Mathlib.Data.List.Chain
import Mathlib.Data.List.Nodup

/-! Chains of calls: they are the simple paths in the graph of calls that are as long as they may be
or cannot go on, each listed once. -/
namespace ContractAtlas

namespace Function
variable {all : List Function} {start f g : Function} {path chain : List String}

/-- Distinct names from that of `start` on, each borne by some function and called by the one that
stands for the name before it. -/
structure IsCallPath (all : List Function) (start : Function) (path : List String) : Prop where
  head : path.head? = some start.name
  distinct : path.Nodup
  calls : path.IsChain fun caller called =>
    Leads all start caller called ∧ ∃ g ∈ all, g.name = called

/-- The number of calls on a path of names. -/
def callCount (path : List String) : Nat := path.length - 1

/-- The path ends at a function that calls none of the functions. -/
def EndsAtLeaf (all : List Function) (start : Function) (path : List String) : Prop :=
  ∃ last f, path.getLast? = some last ∧ standsFor? all start last = some f ∧
    ∀ name, f.Calls name → ∀ g ∈ all, g.name ≠ name

theorem IsCallPath.length_eq (h : IsCallPath all start path) :
    path.length = callCount path + 1 := by
  obtain ⟨rest, rfl⟩ := List.head?_eq_some_iff.1 h.head
  rfl

/-- The path is a call path, and `f` stands for its last name. -/
structure IsCallPathTo (all : List Function) (start : Function) (path : List String)
    (f : Function) : Prop extends IsCallPath all start path where
  last : path.getLast? = some f.name
  standsFor : standsFor? all start f.name = some f

theorem IsCallPathTo.self (all : List Function) (start : Function) :
    IsCallPathTo all start [start.name] start where
  head := rfl
  distinct := List.nodup_singleton _
  calls := .singleton _
  last := rfl
  standsFor := standsFor?_self

/-- The functions that the search goes on to from `f`. -/
def onward (all : List Function) (f : Function) (path : List String) : List Function :=
  (Reach.fresh Function.name [] (f.callees all)).filter fun g => !path.contains g.name

/-- Leaving out repetitions leaves out no function: callees of one name are the same. -/
theorem mem_fresh_callees :
    g ∈ Reach.fresh Function.name [] (f.callees all) ↔ g ∈ f.callees all := by
  refine ⟨Reach.mem_of_mem_fresh, fun hg => ?_⟩
  have hname : g.name ∈ (Reach.fresh Function.name [] (f.callees all)).map Function.name := by
    rw [Reach.map_key_fresh, Reach.mem_fresh]
    exact ⟨List.mem_map_of_mem hg, List.not_mem_nil⟩
  obtain ⟨h, hh, he⟩ := List.mem_map.1 hname
  have hfirst := (mem_callees_iff.1 (Reach.mem_of_mem_fresh hh)).2
  rw [he, (mem_callees_iff.1 hg).2] at hfirst
  cases hfirst
  exact hh

theorem mem_onward : g ∈ onward all f path ↔ g ∈ f.callees all ∧ g.name ∉ path := by
  rw [onward, List.mem_filter, mem_fresh_callees, Bool.not_eq_true', Bool.eq_false_iff, Ne,
    List.contains_iff_mem]

theorem onward_pairwise (all : List Function) (f : Function) (path : List String) :
    (onward all f path).Pairwise fun g h => g.name ≠ h.name :=
  (List.pairwise_map.1 (Reach.nodup_map_fresh Function.name [] (f.callees all))).filter _

theorem callees_eq_nil_iff :
    f.callees all = [] ↔ ∀ name, f.Calls name → ∀ g ∈ all, g.name ≠ name := by
  rw [List.eq_nil_iff_forall_not_mem]
  constructor
  · intro h name hcalls g hg he
    obtain ⟨first, hfirst, -⟩ := exists_callee_iff.2 ⟨hcalls, g, hg, he⟩
    exact h first hfirst
  · intro h g hg
    obtain ⟨hcalls, g', hg', he⟩ := exists_callee_iff.1 ⟨g, hg, rfl⟩
    exact h g.name hcalls g' hg' he

namespace IsCallPathTo
variable (h : IsCallPathTo all start path f)
include h

theorem ne_nil : path ≠ [] := by
  rintro rfl
  exact Option.some_ne_none _ h.head.symm

theorem endsAtLeaf_iff : EndsAtLeaf all start path ↔ f.callees all = [] := by
  rw [callees_eq_nil_iff]
  constructor
  · rintro ⟨last, g, hlast, hg, hleaf⟩
    cases h.last.symm.trans hlast
    cases h.standsFor.symm.trans hg
    exact hleaf
  · intro hleaf
    exact ⟨f.name, f, h.last, h.standsFor, hleaf⟩

/-- Where the search goes on, so does the path. -/
theorem onward (hg : g ∈ onward all f path) : IsCallPathTo all start (path ++ [g.name]) g := by
  obtain ⟨hcallee, hnew⟩ := mem_onward.1 hg
  obtain ⟨hcalls, hfirst⟩ := mem_callees_iff.1 hcallee
  have hne : g.name ≠ start.name := fun he => hnew (he ▸ List.mem_of_head? h.head)
  refine ⟨⟨?_, ?_, ?_⟩, List.getLast?_concat, (standsFor?_of_ne hne).trans hfirst⟩
  · rw [List.head?_append_of_ne_nil _ h.ne_nil, h.head]
  · refine List.nodup_append.2 ⟨h.distinct, List.nodup_singleton _, fun a ha b hb he => ?_⟩
    rw [List.mem_singleton.1 hb] at he
    exact hnew (he ▸ ha)
  · refine h.calls.append (.singleton _) fun a ha b hb => ?_
    cases h.last.symm.trans ha
    cases hb
    exact ⟨⟨f, h.standsFor, hcalls⟩, g, List.mem_of_find?_eq_some hfirst, rfl⟩

/-- A longer path goes on where the search does. -/
theorem eq_or_exists_onward (hp : path <+: chain) (hchain : IsCallPath all start chain) :
    chain = path ∨ ∃ g ∈ Function.onward all f path, path ++ [g.name] <+: chain := by
  obtain ⟨rest, rfl⟩ := hp
  cases rest with
  | nil => exact .inl (List.append_nil _)
  | cons name rest =>
    refine .inr ?_
    have hedge := (List.isChain_append.1 hchain.calls).2.2 f.name h.last name rfl
    obtain ⟨⟨f', hf', hcalls⟩, hloaded⟩ := hedge
    cases h.standsFor.symm.trans hf'
    obtain ⟨g, hg, rfl⟩ := exists_callee_iff.2 ⟨hcalls, hloaded⟩
    have hnew : g.name ∉ path := fun hm =>
      (List.nodup_append.1 hchain.distinct).2.2 _ hm _ List.mem_cons_self rfl
    exact ⟨g, mem_onward.2 ⟨hg, hnew⟩, rest, by rw [List.append_assoc, List.singleton_append]⟩

theorem eq_of_leaf (hleaf : f.callees all = []) (hp : path <+: chain)
    (hchain : IsCallPath all start chain) : chain = path := by
  rcases h.eq_or_exists_onward hp hchain with he | ⟨g, hg, -⟩
  · exact he
  · exact absurd (hleaf ▸ (mem_onward.1 hg).1) List.not_mem_nil

end IsCallPathTo

end Function

namespace CallChains
variable {all : List Function} {start f : Function} {path chain : List String} {left : Nat}

theorem foldl_append {α : Type} (F : α → CallChains) (as : List α) (done : CallChains) :
    as.foldl (fun done a => done.append (F a)) done =
      ⟨done.chains ++ as.flatMap fun a => (F a).chains,
        done.depthReached || as.any fun a => (F a).depthReached⟩ := by
  induction as generalizing done with
  | nil => simp
  | cons a as ih =>
    rw [List.foldl_cons, ih, append, List.flatMap_cons, List.any_cons, List.append_assoc,
      Bool.or_assoc]

theorem extend_of_leaf (hleaf : f.callees all = []) (left : Nat) (path : List String) :
    extend all (left + 1) f path = ofPath path false := by
  rw [extend, hleaf]
  rfl

theorem extend_of_calls (hcalls : f.callees all ≠ []) (left : Nat) (path : List String) :
    extend all (left + 1) f path =
      ⟨(f.onward all path).flatMap fun g => (extend all left g (path ++ [g.name])).chains,
        (f.onward all path).any fun g => (extend all left g (path ++ [g.name])).depthReached⟩ := by
  rw [extend]
  split
  · rename_i hnone
    refine absurd (List.eq_nil_iff_forall_not_mem.2 fun g hg => ?_) hcalls
    exact List.not_mem_nil (hnone ▸ Function.mem_fresh_callees.2 hg)
  · rw [foldl_append]
    rfl

theorem mem_ofPath {reached : Bool} :
    chain ∈ (ofPath path reached).chains ↔ chain = path ∧ 1 < path.length := by
  rw [ofPath]
  split
  · rename_i hlong
    rw [List.mem_singleton, and_iff_left hlong]
  · rename_i hshort
    exact iff_of_false List.not_mem_nil fun h => hshort h.2

private theorem length_concat_add (path : List String) (name : String) (left : Nat) :
    (path ++ [name]).length + left = path.length + (left + 1) := by
  rw [List.length_append, List.length_singleton, Nat.add_assoc, Nat.add_comm 1]

/-- What the search lists from a path on: the call paths that go on from it and are as long as they
may be or end at a leaf. -/
theorem mem_extend_iff (h : Function.IsCallPathTo all start path f) :
    chain ∈ (extend all left f path).chains ↔ path <+: chain ∧ Function.IsCallPath all start chain ∧
      1 < chain.length ∧ chain.length ≤ path.length + left ∧
      (chain.length = path.length + left ∨ Function.EndsAtLeaf all start chain) := by
  induction left generalizing f path with
  | zero =>
    rw [extend, mem_ofPath]
    constructor
    · rintro ⟨rfl, hlong⟩
      exact ⟨List.prefix_rfl, h.toIsCallPath, hlong, Nat.le_refl _, .inl rfl⟩
    · rintro ⟨hp, -, hlong, hle, -⟩
      have he := hp.eq_of_length_le hle
      exact ⟨he.symm, he ▸ hlong⟩
  | succ left ih =>
    by_cases hleaf : f.callees all = []
    · rw [extend_of_leaf hleaf, mem_ofPath]
      constructor
      · rintro ⟨rfl, hlong⟩
        exact ⟨List.prefix_rfl, h.toIsCallPath, hlong, Nat.le_add_right _ _,
          .inr (h.endsAtLeaf_iff.2 hleaf)⟩
      · rintro ⟨hp, hchain, hlong, -, -⟩
        cases h.eq_of_leaf hleaf hp hchain
        exact ⟨rfl, hlong⟩
    · rw [extend_of_calls hleaf, List.mem_flatMap]
      constructor
      · rintro ⟨g, hg, hchain⟩
        rw [ih (h.onward hg), length_concat_add] at hchain
        exact hchain.imp_left fun hp => (List.prefix_append path [g.name]).trans hp
      · rintro ⟨hp, hchain, hlong, hle, hend⟩
        rcases h.eq_or_exists_onward hp hchain with rfl | ⟨g, hg, hp⟩
        · rcases hend with hend | hend
          · omega
          · exact absurd (h.endsAtLeaf_iff.1 hend) hleaf
        · refine ⟨g, hg, ?_⟩
          rw [ih (h.onward hg), length_concat_add]
          exact ⟨hp, hchain, hlong, hle, hend⟩

/-- The search notices every path of full length. -/
theorem depthReached_extend_iff (h : Function.IsCallPathTo all start path f) :
    (extend all left f path).depthReached = true ↔ ∃ chain, path <+: chain ∧
      Function.IsCallPath all start chain ∧ chain.length = path.length + left := by
  induction left generalizing f path with
  | zero => exact iff_of_true rfl ⟨path, List.prefix_rfl, h.toIsCallPath, rfl⟩
  | succ left ih =>
    by_cases hleaf : f.callees all = []
    · rw [extend_of_leaf hleaf]
      refine iff_of_false Bool.false_ne_true ?_
      rintro ⟨chain, hp, hchain, hfull⟩
      rw [h.eq_of_leaf hleaf hp hchain] at hfull
      omega
    · rw [extend_of_calls hleaf, List.any_eq_true]
      constructor
      · rintro ⟨g, hg, hreached⟩
        rw [ih (h.onward hg), length_concat_add] at hreached
        obtain ⟨chain, hp, hchain⟩ := hreached
        exact ⟨chain, (List.prefix_append path [g.name]).trans hp, hchain⟩
      · rintro ⟨chain, hp, hchain, hfull⟩
        rcases h.eq_or_exists_onward hp hchain with rfl | ⟨g, hg, hp⟩
        · omega
        · refine ⟨g, hg, ?_⟩
          rw [ih (h.onward hg), length_concat_add]
          exact ⟨chain, hp, hchain, hfull⟩

/-- No chain is listed twice: chains that go on differently differ. -/
theorem nodup_extend (h : Function.IsCallPathTo all start path f) :
    (extend all left f path).chains.Nodup := by
  induction left generalizing f path with
  | zero =>
    rw [extend, ofPath]
    split <;> simp
  | succ left ih =>
    by_cases hleaf : f.callees all = []
    · rw [extend_of_leaf hleaf, ofPath]
      split <;> simp
    · rw [extend_of_calls hleaf, List.nodup_flatMap]
      refine ⟨fun g hg => ih (h.onward hg), ?_⟩
      refine (Function.onward_pairwise all f path).imp_of_mem ?_
      intro g g' hg hg' hne chain hchain hchain'
      have hp := ((mem_extend_iff (h.onward hg)).1 hchain).1
      have hp' := ((mem_extend_iff (h.onward hg')).1 hchain').1
      have hlength : (path ++ [g.name]).length = (path ++ [g'.name]).length := by simp
      have he :=
        (List.prefix_of_prefix_length_le hp hp' (Nat.le_of_eq hlength)).eq_of_length hlength
      exact hne (List.singleton_inj.1 (List.append_cancel_left he))

end CallChains

namespace Program
variable {p : Program} {target : String} {start : Function}

/-- The first function that a target names, in the contracts before its dot if it has one. -/
def startOf? (p : Program) (target : String) : Option Function :=
  (QualifiedName.ofText? target.toList).bind fun q =>
    ((p.contracts.filter fun c => q.contract.all (· == c.name)).flatMap Contract.functions).find?
      fun f => f.name == q.name

theorem findSome?_declarationsOf (p : Program) (q : QualifiedName) :
    (p.declarationsOf q .function).findSome? Declaration.function =
      ((p.contracts.filter fun c => q.contract.all (· == c.name)).flatMap Contract.functions).find?
        fun f => f.name == q.name := by
  have hcontract : ∀ c : Contract,
      ((c.declarations .function).filter fun d => d.name == q.name).filterMap Declaration.function =
        c.functions.filter fun f => f.name == q.name := by
    intro c
    rw [Contract.declarations, List.filter_map, List.filterMap_map]
    exact List.filterMap_some
  rw [← List.head?_filterMap, ← List.head?_filter, declarationsOf, List.filterMap_flatMap,
    List.filter_flatMap]
  simp only [hcontract]

theorem callChains_of_start (hstart : p.startOf? target = some start) {depth : Nat}
    (hdepth : 1 ≤ depth) :
    p.callChains target depth = .ok (CallChains.extend p.functions depth start [start.name]) := by
  obtain ⟨q, hq, hfind⟩ := Option.bind_eq_some_iff.1 hstart
  simp only [callChains, hq, findSome?_declarationsOf, hfind]
  rw [if_neg (by omega)]

/-- From the function that a target names, all call paths of at least one call and at most `depth`
calls are listed, each once, that are of full length or end at a function that calls no loaded one;
and it is known whether there is one of full length. -/
theorem callChains_exact (p : Program) {target : String} {start : Function}
    (hstart : p.startOf? target = some start) {depth : Nat} (hdepth : 1 ≤ depth) :
    ∃ found, p.callChains target depth = .ok found ∧ found.chains.Nodup ∧
      (∀ path, path ∈ found.chains ↔ Function.IsCallPath p.functions start path ∧
        1 ≤ Function.callCount path ∧ Function.callCount path ≤ depth ∧
        (Function.callCount path = depth ∨ Function.EndsAtLeaf p.functions start path)) ∧
      (found.depthReached = true ↔
        ∃ path, Function.IsCallPath p.functions start path ∧ Function.callCount path = depth) := by
  have hself := Function.IsCallPathTo.self p.functions start
  have hfront : ∀ path, Function.IsCallPath p.functions start path → [start.name] <+: path := by
    intro path hpath
    obtain ⟨rest, rfl⟩ := List.head?_eq_some_iff.1 hpath.head
    exact ⟨rest, rfl⟩
  refine ⟨_, callChains_of_start hstart hdepth, CallChains.nodup_extend hself, fun path => ?_, ?_⟩
  · rw [CallChains.mem_extend_iff hself, List.length_singleton]
    constructor
    · rintro ⟨-, hpath, hlong, hle, hend⟩
      have hlength := hpath.length_eq
      exact ⟨hpath, by omega, by omega, hend.imp_left fun hfull => by omega⟩
    · rintro ⟨hpath, hlong, hle, hend⟩
      have hlength := hpath.length_eq
      exact ⟨hfront path hpath, hpath, by omega, by omega, hend.imp_left fun hfull => by omega⟩
  · rw [CallChains.depthReached_extend_iff hself, List.length_singleton]
    constructor
    · rintro ⟨path, -, hpath, hfull⟩
      have hlength := hpath.length_eq
      exact ⟨path, hpath, by omega⟩
    · rintro ⟨path, hpath, hfull⟩
      have hlength := hpath.length_eq
      exact ⟨path, hfront path hpath, hpath, by omega⟩

end Program

namespace Sample

/-- A statement that calls a function by its name. -/
def callStatement (name : String) : Node :=
  { kind := .expressionStatement, children := [{ kind := .call { callee := .identifier name } }] }

/-- Two ways from `entry` to `leaf`, one of which also leads back; `entry` emits an event called
`leaf`, and what `leaf` calls is not loaded. -/
def routing : Program :=
  let emitted : Node :=
    { kind := .emit "leaf", children := [{ kind := .call { callee := .identifier "leaf" } }] }
  let block (statements : List Node) : Option Node :=
    some { kind := .block, children := statements }
  (({} : Program).addContract
    { name := "Router"
      functions :=
        [{ name := "entry", body := block [emitted, callStatement "left", callStatement "right"] },
          { name := "left", body := block [callStatement "leaf", callStatement "leaf"] },
          { name := "right", body := block [callStatement "entry", callStatement "leaf"] },
          { name := "leaf", body := block [callStatement "revert"] }] }).2

end Sample

namespace Program

theorem callChains_exact_sample :
    ∃ start, Sample.routing.startOf? "Router.entry" = some start ∧ 1 ≤ 3 ∧
      Sample.routing.callChains "Router.entry" 3 =
        .ok ⟨[["entry", "left", "leaf"], ["entry", "right", "leaf"]], false⟩ ∧
      Function.IsCallPath Sample.routing.functions start ["entry", "right", "leaf"] ∧
      Function.EndsAtLeaf Sample.routing.functions start ["entry", "right", "leaf"] ∧
      ¬ ∃ path, Function.IsCallPath Sample.routing.functions start path ∧
        Function.callCount path = 3 := by
  have hresolved : (Sample.routing.startOf? "Router.entry").isSome = true := by decide +kernel
  obtain ⟨start, hstart⟩ := Option.isSome_iff_exists.1 hresolved
  have hrun : (Sample.routing.callChains "Router.entry" 3).toOption =
      some ⟨[["entry", "left", "leaf"], ["entry", "right", "leaf"]], false⟩ := by decide +kernel
  obtain ⟨found, hfound, -, hexact, hreached⟩ :=
    callChains_exact Sample.routing hstart (show 1 ≤ 3 by decide)
  rw [hfound] at hrun
  cases Option.some.inj hrun
  obtain ⟨hpath, -, -, hend⟩ := (hexact ["entry", "right", "leaf"]).1 (by decide)
  refine ⟨start, hstart, by decide, hfound, hpath, hend.resolve_left (by decide), fun hfull => ?_⟩
  exact Bool.false_ne_true (hreached.2 hfull)

end Program

end ContractAtlas
