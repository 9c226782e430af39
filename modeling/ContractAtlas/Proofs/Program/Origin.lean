import ContractAtlas.Proofs.Grammar.Exactness
import ContractAtlas.Proofs.Program.Coherence

/-! Where the nodes of a loaded program come from: whatever was loaded and analysed in between, each
still has the place that lowering gave it, from the start of some tree of its file on. -/
namespace ContractAtlas

namespace Lowered
variable {s : TreeSource} {t : ParseTree}

/-- Every node of `n` covers the source from the start of a tree of `t` up to some byte. -/
def StartsWithin (s : TreeSource) (t : ParseTree) (n : Node) : Prop :=
  ∀ m ∈ n.descendants, ∃ x ∈ t.subtrees, ∃ stop kind children, m = nodeUpTo s x stop kind children

theorem startsWithin_nodeUpTo {x : ParseTree} (hx : x ∈ t.subtrees) (stop : Nat) (kind : NodeKind)
    {children : List Node} (hchildren : ∀ c ∈ children, StartsWithin s t c) :
    StartsWithin s t (nodeUpTo s x stop kind children) := by
  intro m hm
  rw [Node.descendants_eq] at hm
  rcases List.mem_cons.1 hm with rfl | hm
  · exact ⟨x, hx, stop, kind, children, rfl⟩
  · obtain ⟨c, hc, hm⟩ := List.mem_flatMap.1 hm
    exact hchildren c hc m hm

theorem Assembled.startsWithin {x : ParseTree} (hx : x ∈ t.subtrees)
    (hbelow : ∀ c ∈ x.children, ∀ y ∈ c.subtrees, StartsWithin s t (ofTree s y).node) {n : Node}
    (hn : Assembled s x n) : StartsWithin s t n := by
  have hdrawn : ∀ n, Drawn s x n → StartsWithin s t n := by
    rintro n ⟨c, hc, y, hy, rfl⟩
    exact hbelow c hc y hy
  cases hn with
  | whole hchildren =>
    exact startsWithin_nodeUpTo hx x.stop _ fun n hn => hdrawn n (hchildren n hn)
  | inner hn => exact hdrawn n hn
  | @event _ _ name _ _ hname harguments =>
    have hname' := ParseTree.mem_children_of_fieldOrFirst? hname
    refine startsWithin_nodeUpTo hx x.stop _ fun n hn => ?_
    cases List.mem_singleton.1 hn
    refine startsWithin_nodeUpTo (ParseTree.mem_subtrees_trans hx
      (ParseTree.mem_subtrees_of_child hname' name.self_mem_subtrees)) _ _ fun n hn => ?_
    rcases List.mem_cons.1 hn with rfl | hn
    · exact hbelow name hname' name name.self_mem_subtrees
    · obtain ⟨a, ha, -, y, hy, rfl⟩ := harguments n hn
      exact hbelow a (x.content_subset ha) y hy
  | conversion harguments =>
    refine startsWithin_nodeUpTo hx x.stop _ fun n hn => ?_
    rcases List.mem_cons.1 hn with rfl | hn
    · exact startsWithin_nodeUpTo hx _ _ fun _ hc => nomatch hc
    · exact hdrawn n (harguments n hn)

/-- Lowering gives every node the place of some tree. -/
theorem startsWithin_ofTree {x y : ParseTree} (hx : x ∈ t.subtrees) (hy : y ∈ x.subtrees) :
    StartsWithin s t (ofTree s y).node := by
  induction x generalizing y with
  | tree x ih =>
    have hbelow : ∀ c ∈ x.children, ∀ y ∈ c.subtrees, StartsWithin s t (ofTree s y).node :=
      fun c hc y hy =>
        ih c hc
          (ParseTree.mem_subtrees_trans hx (ParseTree.mem_subtrees_of_child hc c.self_mem_subtrees))
        hy
    rcases ParseTree.mem_subtrees.1 hy with rfl | ⟨c, hc, hy⟩
    · rw [ofTree_node]
      exact (assembled_assemble y).startsWithin hx hbelow
    · exact hbelow c hc y hy

end Lowered

namespace Node

/-- Where a node stands and what it covers there. -/
def place (n : Node) : Span × Excerpt := (n.span, n.excerpt)

/-- Classifying calls moves no node. -/
theorem map_place_classifyCalls (settings : Settings) (s : Scope) (n : Node)
    (emitted : Option Text) :
    (n.classifyCalls settings s emitted).descendants.map place = n.descendants.map place := by
  have hplace : ∀ n : Node, n.unclassified.descendants.map place = n.descendants.map place := by
    intro n
    rw [unclassified, descendants_relabel, List.map_map]
    refine List.map_congr_left fun m _ => ?_
    cases m
    rfl
  rw [← hplace, unclassified_classifyCalls, hplace]

end Node

namespace TreeSource

/-- The place from the start of a tree up to a byte. -/
def placeUpTo (s : TreeSource) (t : ParseTree) (stop : Nat) : Span × Excerpt :=
  ({ s.spanOf t with endByte := stop }, ⟨s.text, t.start, stop⟩)

end TreeSource

namespace Program

/-- Every node of the program's code has a file, and `R` holds between this file and its place. -/
def Everywhere (R : SourceFile → Span × Excerpt → Prop) (p : Program) : Prop :=
  ∀ c ∈ p.contracts, ∀ code ∈ c.trees, ∀ place ∈ code.2.descendants.map Node.place,
    ∃ f, p.file? place.1.file = some f ∧ R f place

namespace Everywhere
variable {R : SourceFile → Span × Excerpt → Prop} {p : Program}

theorem empty : Everywhere R {} := fun _ hc => nomatch hc

theorem withFile (hp : p.Everywhere R) (u : SourceUnit) : (p.withFile u).Everywhere R := by
  intro c hc code hcode place hplace
  obtain ⟨f, hf, hR⟩ := hp c hc code hcode place hplace
  obtain ⟨hi, -⟩ := List.getElem?_eq_some_iff.1 hf
  exact ⟨f, (List.getElem?_append_left hi).trans hf, hR⟩

theorem extended (hp : p.Everywhere R) {u : SourceUnit} {imports : List Import}
    {contracts : List Contract} (h : u.read p.files.length = .ok (imports, contracts))
    (hu : SourceFile.refusal? u.text = none → ∀ x ∈ u.tree.subtrees, ∀ file stop,
      R ⟨file, u.path, u.text⟩ ((u.source file).placeUpTo x stop)) :
    (p.extended u imports contracts).Everywhere R := by
  intro c hc code hcode place hplace
  rcases List.mem_append.1 hc with hc | hc
  · exact hp.withFile u c hc code hcode place hplace
  · obtain ⟨i, hi, rfl⟩ := List.mem_mapIdx.1 hc
    obtain ⟨-, haccepted, -, rfl⟩ := SourceUnit.read_eq_ok h
    rw [Contract.trees_numbered] at hcode
    obtain ⟨x, hx, he⟩ := Lowered.exists_of_mem_trees (List.getElem_mem hi) hcode
    obtain ⟨m, hm, rfl⟩ := List.mem_map.1 hplace
    rw [he] at hm
    obtain ⟨y, hy, stop, kind, children, rfl⟩ :=
      Lowered.startsWithin_ofTree hx x.self_mem_subtrees m hm
    exact ⟨_, List.getElem?_concat_length, hu haccepted y hy p.files.length stop⟩

theorem analyze (hp : p.Everywhere R) (settings : Settings) :
    (p.analyze settings).Everywhere R := by
  intro c hc code hcode place hplace
  obtain ⟨d, hd, rfl⟩ := List.mem_map.1 hc
  rw [Contract.trees_analyze] at hcode
  obtain ⟨source, hsource, rfl⟩ := List.mem_map.1 hcode
  rw [Node.map_place_classifyCalls] at hplace
  exact hp d hd source hsource place hplace

/-- What holds of all places that the trees of an accepted file can give holds everywhere after any
loads. -/
theorem enterAll (hp : p.Everywhere R) {loads : List (Option Settings × SourceUnit)}
    (hloads : ∀ load ∈ loads, SourceFile.refusal? load.2.text = none →
      ∀ x ∈ load.2.tree.subtrees, ∀ file stop,
        R ⟨file, load.2.path, load.2.text⟩ ((load.2.source file).placeUpTo x stop)) :
    (p.enterAll loads).Everywhere R :=
  enterAll_induction hp fun load hload _ hq =>
    enter_induction hq (hq.withFile load.2) (fun _ _ hread => hq.extended hread (hloads load hload))
      (fun _ settings hq => hq.analyze settings) load.1

end Everywhere

end Program

namespace SourceFile

/-- The place is cut out of the file: the span tells row and column of its start, and the excerpt
has the file's own text. -/
structure Cut (f : SourceFile) (place : Span × Excerpt) : Prop where
  accepted : refusal? f.text = none
  path : place.1.path = f.path
  excerpt : place.2 = ⟨f.text, place.1.startByte, place.1.endByte⟩
  line : place.1.line = (f.text.rowColumn place.1.startByte).1 + 1
  column : place.1.column = (f.text.rowColumn place.1.startByte).2 + 1

end SourceFile

namespace Program

theorem everywhere_cut (loads : List (Option Settings × SourceUnit)) :
    (enterAll {} loads).Everywhere SourceFile.Cut :=
  Everywhere.empty.enterAll fun _ _ haccepted _ _ _ _ =>
    { accepted := haccepted, path := rfl, excerpt := rfl, line := rfl, column := rfl }

end Program

end ContractAtlas
