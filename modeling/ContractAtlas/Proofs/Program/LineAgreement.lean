import ContractAtlas.Proofs.Program.Origin
import ContractAtlas.Proofs.Source.LineColumn
import ContractAtlas.Proofs.Source.Window

/-! The line that a node records and the line that its file has for the node's first byte. The
recorded line counts rows, so the two agree exactly where no carriage return stands alone before the
node. -/
namespace ContractAtlas

namespace Program

/-- Every node of the program's code starts within its file, which is an accepted one, on the row
that it records. -/
def Located (p : Program) : Prop :=
  ∀ c ∈ p.contracts, ∀ code ∈ c.trees, ∀ span ∈ code.2.descendants.map Node.span,
    ∃ f, p.file? span.file = some f ∧ SourceFile.refusal? f.text = none ∧
      span.startByte ≤ f.text.byteSize ∧ span.line = (f.text.rowColumn span.startByte).1 + 1

namespace Located
variable {p : Program}

theorem empty : Located {} := fun _ hc => nomatch hc

theorem iff_everywhere :
    p.Located ↔ p.Everywhere fun f place => SourceFile.refusal? f.text = none ∧
      place.1.startByte ≤ f.text.byteSize ∧
      place.1.line = (f.text.rowColumn place.1.startByte).1 + 1 := by
  simp only [Located, Everywhere, List.forall_mem_map]
  rfl

theorem enterAll (hp : p.Located) {loads : List (Option Settings × SourceUnit)}
    (hloads : ∀ load ∈ loads, ∀ x ∈ load.2.tree.subtrees, x.start ≤ load.2.text.byteSize) :
    (p.enterAll loads).Located := by
  rw [iff_everywhere] at hp ⊢
  exact hp.enterAll fun load hload haccepted x hx _ _ =>
    ⟨haccepted, hloads load hload x hx, rfl⟩

end Located

/-- Whatever files are loaded, each from a syntax tree that lies within its text: the line on which
a node starts, which its file gives for the node's first byte, is the line that the node records,
moved on by the carriage returns before it that stand alone. Without such returns the two are the
same, and the context of the recorded line is that of the line on which the node starts. -/
theorem enterAll_lines {loads : List (Option Settings × SourceUnit)}
    (hloads : ∀ load ∈ loads, ∀ x ∈ load.2.tree.subtrees, x.start ≤ load.2.text.byteSize)
    {c : Contract} (hc : c ∈ (enterAll {} loads).contracts) {code : (Scope → Scope) × Node}
    (hcode : code ∈ c.trees) {v : Node.Visit} (hv : v ∈ code.2.walk) :
    ∃ f before l after column, (enterAll {} loads).file? v.node.span.file = some f ∧
      f.text.LineAt v.node.span.startByte before l after ∧
      f.lineColumn? v.node.span.startByte = some (before.length + 1, column) ∧
      before.length + 1 = v.node.span.line + f.text.loneReturns v.node.span.startByte ∧
      (v.node.span.line = before.length + 1 ↔
        ∀ i < v.node.span.startByte, ¬ f.text.LoneReturn i) ∧
      ∀ radius : UInt64, before.length + 1 + radius.toNat < UInt64.size →
        v.node.span.line = before.length + 1 →
        f.contextAround? v.node.span.line radius =
          some (Text.join ['\n'] ((before.drop (before.length - radius.toNat) ++
            l :: after.take radius.toNat).map Line.body)).trim := by
  have hmem : v.node.span ∈ code.2.descendants.map Node.span := by
    rw [← Node.map_node_walk]
    exact List.mem_map_of_mem (List.mem_map_of_mem hv)
  obtain ⟨f, hf, haccepted, hstart, hline⟩ := (Located.empty.enterAll hloads) c hc code hcode _ hmem
  obtain ⟨before, l, after, hat⟩ := f.text.exists_lineAt v.node.span.startByte
  obtain ⟨column, hcolumn⟩ := SourceFile.exists_lineColumn? haccepted hstart hat
  have hmoved := hat.length_eq
  rw [← hline] at hmoved
  refine ⟨f, before, l, after, column, hf, hat, hcolumn, hmoved, ?_, fun radius hwords hsame => ?_⟩
  · rw [← Text.loneReturns_eq_zero_iff]
    omega
  · rw [hsame]
    exact SourceFile.contextAround?_eq hat.lines hwords

end Program

namespace Sample

/-- A function behind a carriage return that stands alone. -/
def returned : SourceUnit :=
  { base with text := "contract Ok \x7b\rfunction f() public \x7b f(); \x7d \x7d".toList }

/-- That file, loaded behind another one that is analysed. -/
def mixedLoads : List (Option Settings × SourceUnit) := [(some {}, emitting), (none, returned)]

end Sample

namespace Program

/-- The invocation of the event, on the third row of the first file. -/
theorem enterAll_lines_sample :
    (∀ load ∈ Sample.mixedLoads, ∀ x ∈ load.2.tree.subtrees, x.start ≤ load.2.text.byteSize) ∧
    ∃ c ∈ (enterAll {} Sample.mixedLoads).contracts, ∃ code ∈ c.trees, ∃ v ∈ code.2.walk,
      v.node.text = "E(uint(g()))".toList ∧ v.node.span.line = 3 ∧
      ∃ f before l after column,
        (enterAll {} Sample.mixedLoads).file? v.node.span.file = some f ∧
        f.text.LineAt v.node.span.startByte before l after ∧
        f.lineColumn? v.node.span.startByte = some (before.length + 1, column) ∧
        before.length + 1 = 3 + f.text.loneReturns v.node.span.startByte := by
  have hloads : ∀ load ∈ Sample.mixedLoads, ∀ x ∈ load.2.tree.subtrees,
      x.start ≤ load.2.text.byteSize := by decide +kernel
  have hrun : ∃ c ∈ (enterAll {} Sample.mixedLoads).contracts, ∃ code ∈ c.trees, ∃ v ∈ code.2.walk,
      v.node.text = "E(uint(g()))".toList ∧ v.node.span.line = 3 := by decide +kernel
  obtain ⟨c, hc, code, hcode, v, hv, htext, hline⟩ := hrun
  obtain ⟨f, before, l, after, column, hf, hat, hcolumn, hmoved, -⟩ :=
    enterAll_lines hloads hc hcode hv
  rw [hline] at hmoved
  exact ⟨hloads, c, hc, code, hcode, v, hv, htext, hline, f, before, l, after, column,
    hf, hat, hcolumn, hmoved⟩

/-- Behind a carriage return that stands alone the recorded line is the one before, and the context
taken there does not show the statement. -/
theorem context_before_lone_return :
    ∃ c ∈ (enterAll {} Sample.mixedLoads).contracts, ∃ code ∈ c.trees, ∃ v ∈ code.2.walk,
      v.node.text = "f();".toList ∧ v.node.span.line = 1 ∧
      ∃ f ∈ (enterAll {} Sample.mixedLoads).file? v.node.span.file,
        f.lineColumn? v.node.span.startByte = some (2, 23) ∧
        f.contextAround? v.node.span.line 0 = some "contract Ok \x7b".toList := by
  decide +kernel

end Program

end ContractAtlas
