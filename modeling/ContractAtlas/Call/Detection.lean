import ContractAtlas.Call.Kind
import ContractAtlas.NameSet
import ContractAtlas.Pattern.CallRules
import ContractAtlas.Pattern.Shapes
import ContractAtlas.Program.Keyword
import ContractAtlas.Text.Search

/-! Telling the kind of a call from its text, with hints from its surroundings where the text leaves
it open. -/
namespace ContractAtlas

/-- What is known about a call beyond its text. -/
structure Hints where
  visibility : Option Visibility := none
  isLibraryCall : Bool := false
  /-- Names that stand for libraries at this call. -/
  libraries : NameSet := ∅
  isExternalContract : Bool := false
  isSameContract : Bool := false
deriving Inhabited

namespace CallKind

/-- The rules that decide on the text alone, in order of priority. -/
def verdicts : List (RuleSet × CallKind) := [
  (CallRules.event, event),
  (CallRules.assemblyDelegate, delegate),
  (CallRules.assemblyStatic, static),
  (CallRules.assembly, assembly),
  (CallRules.delegate, delegate),
  (CallRules.static, static),
  (CallRules.lowLevel, lowLevel),
  (CallRules.interface, external),
  (CallRules.builtin, builtin),
  (⟨"creation", [CallRules.newArray]⟩, newArray),
  (⟨"creation", [CallRules.newElementary]⟩, newElementary),
  (⟨"creation", [CallRules.newContract]⟩, newContract),
  (⟨"creation", [CallRules.newStruct]⟩, newStruct),
  (CallRules.typeConversion, conversion)]

/-- The verdict of the first rule set that matches. -/
def ofRules? (t : Text) : Option CallKind :=
  (verdicts.find? fun v => v.1.occursIn t).map Prod.snd

/-- A hint that says so, or a member call on a name that stands for a library. An interface cast
anywhere in the text rules the second out. -/
def isLibraryCall (known : NameSet) (hints : Option Hints) (t : Text) : Bool :=
  hints.any Hints.isLibraryCall ||
    match Shapes.libraryCall.find? t with
    | some found =>
      let receiver := String.ofList (found.groups.headD [])
      !Shapes.interfaceCast.occursIn t &&
        (known.contains receiver || hints.any fun h => h.libraries.contains receiver)
    | none => false

/-- What the hints say: a known visibility before anything else. -/
def ofHints? (h : Hints) : Option CallKind :=
  match h.visibility with
  | some .privately => some privateFunction
  | some .publicly => some publicFunction
  | some .internally => some internal
  | some .externally => some external
  | none =>
    if h.isExternalContract then some external
    else if h.isSameContract then some internal
    else none

/-- The guess for a text that nothing else decides. -/
def ofShape (t : Text) : CallKind :=
  if Shapes.simpleCall.occursIn t then internal
  else if Shapes.memberCall.occursIn t then external
  else unknown

/-- The kind of a call, where `known` are the names always taken for libraries. -/
def detect (known : NameSet) (hints : Option Hints) (source : Text) : CallKind :=
  let t := source.trim
  match ofRules? t with
  | some kind => kind
  | none =>
    if "this.".toList.isPrefixOf t then internal
    else if isLibraryCall known hints t then library
    else (hints.bind ofHints?).getD (ofShape t)

end CallKind

end ContractAtlas
