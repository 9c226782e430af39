import ContractAtlas.Proofs.Entries
import ContractAtlas.Proofs.Variable.Sighting
import ContractAtlas.Variable.Log
import Mathlib.Algebra.GroupWithZero.Nat

/-! The two indexes of a variable log hold the same references, whatever functions are logged and
however often. The first function of each key counts, and later ones of the same key change
nothing. -/
namespace ContractAtlas

namespace Function

/-- The references that a function adds to a log. -/
def references (f : Function) : List VariableReference := f.sightings.map Sighting.reference

/-- Nothing is recorded that is neither read nor written. -/
theorem isRead_or_isWrite_of_mem {f : Function} {r : VariableReference} (hr : r ∈ f.references) :
    r.isRead = true ∨ r.isWrite = true := by
  have hmake : ∀ name span statement path access declares,
      (Sighting.make f.name name span statement path access declares).reference.isRead = true ∨
        (Sighting.make f.name name span statement path access declares).reference.isWrite =
          true := by
    intro name span statement path access declares
    cases access with
    | read => exact .inl rfl
    | write => exact .inr rfl
    | readWrite => exact .inl rfl
  obtain ⟨s, hs, rfl⟩ := List.mem_map.1 hr
  rcases List.mem_append.1 hs with hs | hs
  · obtain ⟨name, -, rfl⟩ := List.mem_map.1 hs
    exact hmake _ _ _ _ _ _
  · cases hbody : f.body with
    | none =>
      rw [hbody] at hs
      cases hs
    | some body =>
      rw [hbody] at hs
      exact (Node.forall_mem_sightings f.name
        (P := fun s => s.reference.isRead = true ∨ s.reference.isWrite = true) hmake body).2 s hs

end Function

namespace VariableLog

/-- The log of a list of functions, in the order in which they were handed in: by function the
references of the first function of each key, by variable the same references under their names. -/
structure Holds (log : VariableLog) (fs : List Function) : Prop where
  byFunction : log.byFunction = (Entries.firstsBy Function.key fs).map fun f =>
    (f.key, f.references)
  byVariable : log.byVariable =
    Entries.grouped VariableReference.name
      ((Entries.firstsBy Function.key fs).flatMap Function.references)

theorem Holds.empty : Holds {} [] := ⟨rfl, rfl⟩

theorem foldl_file (as rs : List VariableReference) :
    rs.foldl file (Entries.grouped VariableReference.name as) =
      Entries.grouped VariableReference.name (as ++ rs) := by
  induction rs generalizing as with
  | nil => rw [List.foldl_nil, List.append_nil]
  | cons r rs ih =>
    rw [List.foldl_cons, file, Entries.update_grouped, ih, List.append_assoc, List.singleton_append]

namespace Holds
variable {log : VariableLog} {fs : List Function}

theorem lookup_isSome_iff (h : log.Holds fs) {key : FunctionKey} :
    (log.byFunction.lookup key).isSome = true ↔ key ∈ fs.map Function.key := by
  rw [h.byFunction, ← Entries.mem_map_firstsBy Function.key]
  induction Entries.firstsBy Function.key fs with
  | nil => simp
  | cons f fs ih =>
    rw [List.map_cons, List.lookup_cons, List.map_cons, List.mem_cons, ← ih]
    by_cases hkey : key = f.key
    · simp [hkey]
    · have hne : (key == f.key) = false := beq_eq_false_iff_ne.2 hkey
      simp [hkey, hne]

/-- A key that is logged already changes nothing, -/
theorem track_of_mem (h : log.Holds fs) {f : Function} (hf : f.key ∈ fs.map Function.key) :
    log.track f = log := by
  obtain ⟨references, hlookup⟩ := Option.isSome_iff_exists.1 (h.lookup_isSome_iff.2 hf)
  rw [track, hlookup]

/-- and a new one adds to both indexes. -/
theorem track (h : log.Holds fs) (f : Function) : (log.track f).Holds (fs ++ [f]) := by
  by_cases hf : f.key ∈ fs.map Function.key
  · have hfirsts : Entries.firstsBy Function.key (fs ++ [f]) =
        Entries.firstsBy Function.key fs := by
      rw [Entries.firstsBy_concat, if_pos hf]
    rw [h.track_of_mem hf]
    exact ⟨hfirsts ▸ h.byFunction, hfirsts ▸ h.byVariable⟩
  · have hfirsts : Entries.firstsBy Function.key (fs ++ [f]) =
        Entries.firstsBy Function.key fs ++ [f] := by
      rw [Entries.firstsBy_concat, if_neg hf]
    have hlookup : log.byFunction.lookup f.key = none :=
      Option.not_isSome_iff_eq_none.1 (mt h.lookup_isSome_iff.1 hf)
    rw [VariableLog.track, hlookup]
    constructor
    · rw [hfirsts, List.map_append, ← h.byFunction]
      rfl
    · rw [hfirsts, List.flatMap_append, List.flatMap_singleton, ← foldl_file, ← h.byVariable]
      rfl

theorem trackAll (h : log.Holds fs) (gs : List Function) :
    (gs.foldl VariableLog.track log).Holds (fs ++ gs) := by
  induction gs generalizing log fs with
  | nil => rwa [List.foldl_nil, List.append_nil]
  | cons g gs ih =>
    rw [List.foldl_cons, List.append_cons]
    exact ih (h.track g)

end Holds

/-- Whatever functions are logged, and however often: by function the log has the references of the
first function of each key, in the order in which the keys first came; by variable it has the same
references, each once, under its own name and in the same order. Each is a read or a write. The
statistics count the references of the functions and the keys, and to log a function of a known key
again changes nothing. -/
theorem trackAll_indexes (fs : List Function) :
    let log := fs.foldl track {}
    let logged := Entries.firstsBy Function.key fs
    log.byFunction = (logged.map fun f => (f.key, f.references)) ∧
      log.byVariable = Entries.grouped VariableReference.name (logged.flatMap Function.references) ∧
      (log.byVariable.flatMap Prod.snd).Perm (log.byFunction.flatMap Prod.snd) ∧
      (∀ r ∈ log.byFunction.flatMap Prod.snd, r.isRead = true ∨ r.isWrite = true) ∧
      log.statistics.references = (log.byFunction.map fun entry => entry.2.length).sum ∧
      log.statistics.functions = (fs.map Function.key).toFinset.card ∧
      ∀ f, f.key ∈ fs.map Function.key → log.track f = log := by
  intro log logged
  have hlog : log.Holds fs := Holds.empty.trackAll fs
  have hall : log.byFunction.flatMap Prod.snd = logged.flatMap Function.references := by
    rw [hlog.byFunction, List.flatMap_map]
  have hperm : (log.byVariable.flatMap Prod.snd).Perm (log.byFunction.flatMap Prod.snd) := by
    rw [hall, hlog.byVariable]
    exact Entries.flatMap_grouped_perm _ _
  refine ⟨hlog.byFunction, hlog.byVariable, hperm,
    fun r hr => ?_, ?_, ?_, fun f hf => hlog.track_of_mem hf⟩
  · rw [hall] at hr
    obtain ⟨f, -, hr⟩ := List.mem_flatMap.1 hr
    exact f.isRead_or_isWrite_of_mem hr
  · rw [← List.length_flatMap]
    exact hperm.length_eq
  · rw [← Entries.length_firstsBy, statistics, hlog.byFunction, List.length_map]

end VariableLog

namespace Sample

/-- A function that puts the value of one variable in place of another's. -/
def replacing (name target source : String) : Function :=
  let assignment : Node :=
    { kind := .assignment "=",
      children := [{ kind := .identifier target }, { kind := .identifier source }] }
  { name := name
    body := some
      { kind := .block, children := [{ kind := .expressionStatement, children := [assignment] }] } }

/-- The third function has the key of the first one. -/
def replacements : List Function :=
  [replacing "f" "x" "y", replacing "g" "y" "x", replacing "f" "z" "x", replacing "g" "y" "x"]

end Sample

namespace VariableLog

theorem trackAll_indexes_sample :
    let log := Sample.replacements.foldl track {}
    log.statistics.functions = 2 ∧ log.statistics.references = 4 ∧
      log.byVariable.map Prod.fst = ["x", "y"] ∧
      (Sample.replacing "f" "z" "x").key ∈ Sample.replacements.map Function.key ∧
      log.track (Sample.replacing "f" "z" "x") = log := by
  have hkey : (Sample.replacing "f" "z" "x").key ∈ Sample.replacements.map Function.key := by decide
  obtain ⟨hfunction, hvariable, -, -, hreferences, hfunctions, hagain⟩ :=
    trackAll_indexes Sample.replacements
  refine ⟨hfunctions.trans (by decide), hreferences.trans ?_, ?_, hkey, hagain _ hkey⟩
  · rw [hfunction]
    decide
  · rw [hvariable]
    decide

end VariableLog

end ContractAtlas
