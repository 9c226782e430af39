import ContractAtlas.Proofs.Call.ScopeGrowth

/-! The two tags of a call agree: a call that moves assets out of the contract also leaves it, and
one that moves them within does not. -/
namespace ContractAtlas

variable {settings : Settings} {s : Scope}

/-- The tag tells of tokens or other assets that leave the contract. -/
def IsMovement (tag : String) : Prop :=
  tag = "token_transfer" ∨ tag = "token_mint_burn" ∨ tag = "asset_movement" ∨
    "asset_transfer_".toList <+: tag.toList

namespace CallSite

/-- A known function without a receiver, or any function on the contract itself. -/
def StaysInside (s : Scope) (site : CallSite) (name : String) : Prop :=
  site.callee.target? = none ∧ s.knowsFunction name = true ∨ site.callee.target? = some "this"

end CallSite

namespace Node
variable {call : Node} {tag : String}

/-- Why a call is taken to move assets. -/
inductive Moves (settings : Settings) (s : Scope) (call : Node) : String → Prop
  | ether : Moves settings s call "eth_transfer"
  | inside {site : CallSite} {name : String} (hsite : call.callSite? = some site)
      (hname : site.callee.name? = some name) (h : site.StaysInside s name) :
      Moves settings s call ("internal_transfer_" ++ name)
  | outside {out : String} (name : String) (h : call.externalTag? settings s = some out) :
      Moves settings s call (transferCategory name call.arguments.length)

theorem moves_of_transferTag? (h : call.transferTag? settings s = some tag) :
    Moves settings s call tag := by
  obtain ⟨site, hsite, h⟩ := Option.bind_eq_some_iff.1 h
  obtain ⟨name, hname, h⟩ := Option.bind_eq_some_iff.1 h
  obtain ⟨-, h⟩ := Option.ite_none_left_eq_some.1 h
  split at h
  · cases h
    exact .ether
  · have houtside : ∀ {tag}, (call.externalTag? settings s).map
        (fun _ => transferCategory name call.arguments.length) = some tag →
          Moves settings s call tag := by
      intro tag h
      obtain ⟨out, hout, rfl⟩ := Option.map_eq_some_iff.1 h
      exact .outside name hout
    cases htarget : site.callee.target? with
    | none =>
      simp only [htarget] at h
      split at h
      · rename_i hknown
        cases h
        exact .inside hsite hname (.inl ⟨htarget, hknown⟩)
      · exact houtside h
    | some target =>
      simp only [htarget] at h
      split at h
      · rename_i hthis
        cases h
        exact .inside hsite hname (.inr (by rw [htarget, of_decide_eq_true hthis]))
      · exact houtside h

/-- Inside the contract only the raw calls are left to tag. -/
theorem externalTag?_of_staysInside {site : CallSite} {name : String}
    (hsite : call.callSite? = some site) (hname : site.callee.name? = some name)
    (h : site.StaysInside s name) :
    call.externalTag? settings s =
      if isRawCall name = true then some ("low_level_call_" ++ name) else none := by
  simp only [externalTag?, hsite, hname, Option.bind_eq_bind, Option.bind_some]
  split
  · rfl
  · rcases h with ⟨htarget, hknown⟩ | htarget
    · simp only [htarget, hknown, if_true]
    · simp only [htarget, if_true]

/-! The first letter of a tag tells the classifiers' cases apart. -/
section FirstLetter

private theorem head?_of_isPrefixOf {front tag : String} (h : front.toList <+: tag.toList)
    (hfront : front.toList ≠ []) : tag.toList.head? = front.toList.head? := by
  obtain ⟨rest, hrest⟩ := h
  rw [← hrest, List.head?_append_of_ne_nil _ hfront]

private theorem head?_append {front : String} (name : String) (hfront : front.toList ≠ []) :
    (front ++ name).toList.head? = front.toList.head? := by
  rw [String.toList_append, List.head?_append_of_ne_nil _ hfront]

/-- The tag of a raw call begins like no other tag of an external call. -/
theorem not_prefix_rawTag {front : String} (name : String) (hfront : front.toList ≠ [])
    (hletter : front.toList.head? ≠ some 'l') :
    ¬ front.toList <+: ("low_level_call_" ++ name).toList := by
  intro h
  have hhead := head?_of_isPrefixOf h hfront
  rw [head?_append name (by decide)] at hhead
  exact hletter hhead.symm

private theorem head?_transferCategory (name : String) (count : Nat) :
    (transferCategory name count).toList.head? ≠ some 'i' := by
  rw [transferCategory]
  split
  · decide
  · split
    · decide
    · split
      · decide
      · split
        · decide
        · rw [head?_append name (by decide)]
          decide

private theorem head?_of_isMovement (h : IsMovement tag) :
    tag.toList.head? = some 't' ∨ tag.toList.head? = some 'a' := by
  rcases h with rfl | rfl | rfl | h
  · exact .inl (by decide)
  · exact .inl (by decide)
  · exact .inr (by decide)
  · exact .inr (by rw [head?_of_isPrefixOf h (by decide)]; decide)

/-- Only a call that leaves the contract moves assets out of it. -/
theorem Moves.leaves (h : Moves settings s call tag) (htag : IsMovement tag) :
    ∃ out, call.externalTag? settings s = some out := by
  have hletter := head?_of_isMovement htag
  cases h with
  | ether => exact absurd hletter (by decide)
  | inside =>
    rw [head?_append _ (by decide)] at hletter
    exact absurd hletter (by decide)
  | outside name hout => exact ⟨_, hout⟩

theorem Moves.staysInside (h : Moves settings s call tag)
    (htag : "internal_transfer_".toList <+: tag.toList) :
    ∃ site name, call.callSite? = some site ∧ site.callee.name? = some name ∧
      site.StaysInside s name := by
  have hletter := head?_of_isPrefixOf htag (by decide)
  cases h with
  | ether => exact absurd hletter (by decide)
  | inside hsite hname hinside => exact ⟨_, _, hsite, hname, hinside⟩
  | outside name hout => exact absurd hletter (head?_transferCategory name _)

end FirstLetter

end Node

namespace Function

/-- Who moves assets out of the contract calls out of it. -/
theorem hasExternalCalls_of_movement (f : Function) {tag : String}
    (h : (f.summarize settings s).transfers.contains tag = true) (htag : IsMovement tag) :
    (f.summarize settings s).hasExternalCalls = true := by
  rw [(f.consistent_summarize settings s).external]
  rw [summarize] at h ⊢
  cases hbody : f.body with
  | none =>
    rw [hbody] at h
    cases h
  | some body =>
    rw [hbody] at h
    simp only [CallSummary.ofTags, NameSet.contains_ofList, List.contains_iff_mem,
      List.mem_filterMap] at h ⊢
    obtain ⟨call, hcall, hmoves⟩ := h
    obtain ⟨out, hout⟩ := (Node.moves_of_transferTag? hmoves).leaves htag
    exact ⟨out, call, hcall, hout⟩

end Function

namespace Sample

/-- A call of a member with identifiers for arguments, in a text of its own. -/
def memberCall (source target name : String) (arguments : List String) : Node where
  kind := .call { callee := .member target name }
  excerpt := .whole source.toList
  children := { kind := .memberAccess name } :: arguments.map fun a => { kind := .identifier a }

/-- A raw call of the contract itself, which names no other contract. -/
def ownCall : Node := memberCall "this.call(data)" "this" "call" ["data"]

/-- A contract that moves assets within and out of it. -/
def paying : Contract where
  name := "Payer"
  stateVariables := [{ name := "token" }]
  functions := [{ name := "pay", body := some { kind := .block, children :=
    [ownCall, memberCall "token.transfer(to, amount)" "token" "transfer" ["to", "amount"]] } }]

end Sample

namespace Program

/-- After an analysis every function that moves tokens or other assets out of the contract is known
to call out of it, and no call that moves assets within is taken for a call to another contract. -/
theorem movement_matches_calls (p : Program) (settings : Settings) :
    (∀ f ∈ (p.analyze settings).functions, ∀ tag, f.summary.transfers.contains tag = true →
      IsMovement tag → f.summary.hasExternalCalls = true) ∧
    ∀ (s : Scope) (call : Node) (tag out : String), call.transferTag? settings s = some tag →
      "internal_transfer_".toList <+: tag.toList → call.externalTag? settings s = some out →
      ¬ "external_call_".toList <+: out.toList ∧
        ¬ "possible_external_call_".toList <+: out.toList := by
  constructor
  · intro f hf tag htransfer htag
    obtain ⟨c, hc, hf⟩ := List.mem_flatMap.1 hf
    obtain ⟨c₀, -, rfl⟩ := List.mem_map.1 hc
    obtain ⟨f₀, -, rfl⟩ := List.mem_map.1 hf
    exact f₀.hasExternalCalls_of_movement htransfer htag
  · intro s call tag out htransfer htag hout
    obtain ⟨site, name, hsite, hname, hinside⟩ :=
      (Node.moves_of_transferTag? htransfer).staysInside htag
    rw [Node.externalTag?_of_staysInside hsite hname hinside] at hout
    obtain ⟨-, hout⟩ := Option.ite_none_right_eq_some.1 hout
    cases hout
    exact ⟨Node.not_prefix_rawTag name (by decide) (by decide),
      Node.not_prefix_rawTag name (by decide) (by decide)⟩

/-- In the sample both calls move assets and the one that stays inside is tagged as a raw call. -/
theorem movement_matches_calls_sample :
    let settings : Settings := { assetTransferFunctions := .ofList ["call", "transfer"] }
    let p := (({} : Program).addContract Sample.paying).2
    (∃ f ∈ (p.analyze settings).functions, f.summary.transfers.contains "token_transfer" = true ∧
      IsMovement "token_transfer" ∧ f.summary.hasExternalCalls = true) ∧
    ∃ tag out, Sample.ownCall.transferTag? settings (Scope.ofContract p 0) = some tag ∧
      "internal_transfer_".toList <+: tag.toList ∧
      Sample.ownCall.externalTag? settings (Scope.ofContract p 0) = some out ∧
      ¬ "external_call_".toList <+: out.toList ∧
        ¬ "possible_external_call_".toList <+: out.toList := by
  intro settings p
  obtain ⟨hcalls, htags⟩ := movement_matches_calls p settings
  constructor
  · have hrun : ∃ f ∈ (p.analyze settings).functions,
        f.summary.transfers.contains "token_transfer" = true := by decide +kernel
    obtain ⟨f, hf, htransfer⟩ := hrun
    exact ⟨f, hf, htransfer, .inl rfl, hcalls f hf _ htransfer (.inl rfl)⟩
  · have htransfer : Sample.ownCall.transferTag? settings (Scope.ofContract p 0) =
      some "internal_transfer_call" := by decide +kernel
    have hout : Sample.ownCall.externalTag? settings (Scope.ofContract p 0) =
      some "low_level_call_call" := by decide +kernel
    exact ⟨_, _, htransfer, by decide, hout, htags _ _ _ _ htransfer (by decide) hout⟩

end Program

end ContractAtlas
