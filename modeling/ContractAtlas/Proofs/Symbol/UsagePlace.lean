import ContractAtlas.Proofs.Program.Origin
import ContractAtlas.Proofs.Source.Limit
import ContractAtlas.Proofs.Symbol.Candidates
import ContractAtlas.Proofs.Symbol.Lookup
import ContractAtlas.Proofs.Symbol.Sides
import ContractAtlas.Proofs.Text.Occurrence

/-! Where usages point: line and column of a usage are put together from the place of a node and
from the rows of its text, and tell where the file has the name. -/
namespace ContractAtlas

section FirstOccurrence
variable {name : Text}

theorem firstOccurrence?_append_cons {line : Text} (hline : '\n' ∉ line) (rest : Text) :
    firstOccurrence? name (line ++ '\n' :: rest) =
      ((Text.offset? (Text.withoutReturn line) name).map fun at_ => (0, at_)).or
        ((firstOccurrence? name rest).map fun place => (place.1 + 1, place.2)) := by
  rw [firstOccurrence?, Text.rows_append_cons hline, List.mapIdx_cons, List.findSome?_cons]
  cases Text.offset? (Text.withoutReturn line) name with
  | some at_ => rfl
  | none =>
    rw [firstOccurrence?, List.map_findSome?]
    simp only [List.mapIdx_eq_zipIdx_map, List.findSome?_map, Option.map_none, Option.none_or,
      Function.comp_def, Option.map_map]

theorem firstOccurrence?_of_not_mem {line : Text} (hline : '\n' ∉ line) (hne : name ≠ []) :
    firstOccurrence? name line = (Text.offset? line name).map fun at_ => (0, at_) := by
  by_cases hempty : line = []
  · rw [hempty, Text.offset?, Text.cut?_nil hne]
    rfl
  · rw [firstOccurrence?, Text.rows_of_not_mem hline hempty]
    cases hat : Text.offset? line name with
    | none => simp [hat]
    | some at_ => simp [hat]

theorem map_offset?_row {line : Text} (hline : '\n' ∉ line) :
    ((Text.offset? line name).map fun at_ => (0, at_)) =
      (Text.cut? name line).map fun cut => cut.1.endPlace := by
  rw [Text.offset?, Option.map_map]
  refine Option.map_congr fun cut hcut => (Text.endPlace_of_not_mem fun hm => hline ?_).symm
  rw [Text.eq_of_cut? hcut]
  exact List.mem_append_left _ hm

/-- The search by rows finds the first occurrence in the whole text, if the name has no line feed
and no carriage return at its end. -/
theorem firstOccurrence?_eq (hfeed : '\n' ∉ name) (hne : name ≠ [])
    (hend : name.getLast? ≠ some '\r') (source : Text) :
    firstOccurrence? name source = (Text.cut? name source).map fun cut => cut.1.endPlace := by
  induction source using Text.rowInduction with
  | last line hline => rw [firstOccurrence?_of_not_mem hline hne, map_offset?_row hline]
  | more line rest hline ih =>
    have hborder : ∀ s, name <+: s ++ '\n' :: rest → name <+: s :=
      fun _ => Text.prefix_of_prefix_append_cons hfeed
    rw [firstOccurrence?_append_cons hline, Text.offset?_withoutReturn hne hend,
      map_offset?_row hline, ih, Text.cut?_append_cons hne hborder, Option.map_or, Option.map_map,
      Option.map_map, Option.map_map]
    simp only [Function.comp_def, Text.endPlace_append_cons hline]

end FirstOccurrence

/-- The file has the node's text where the node starts, and the usage points at the name in it: from
its line and column on, both counted from one and rows ended by line feeds, the file goes on with
the first occurrence of the name in the node's text. -/
structure Usage.PointsInto (u : Usage) (f : SourceFile) (n : Node) : Prop where
  path : u.location.path = f.path
  place : ∃ front before after rest row column,
    f.text = front ++ (n.text ++ rest) ∧ front.byteSize = n.span.startByte ∧
    Text.FirstIn u.name.toList n.text before after ∧
    u.location.line = row + 1 ∧ u.location.column = column + 1 ∧
    f.text.textFrom? row column = some (u.name.toList ++ (after ++ rest))

namespace SourceFile.Cut
variable {f : SourceFile} {n : Node}

/-- A node with a text stands in its file at its place. -/
theorem exists_front (h : f.Cut n.place) (htext : n.text ≠ []) :
    ∃ front rest, f.text = front ++ (n.text ++ rest) ∧ front.byteSize = n.span.startByte ∧
      n.span.line = front.endPlace.1 + 1 ∧ n.span.column = front.endPlace.2 + 1 := by
  have hexcerpt : n.text = (f.text.slice? n.span.startByte n.span.endByte).getD [] :=
    congrArg Excerpt.text h.excerpt
  cases hslice : f.text.slice? n.span.startByte n.span.endByte with
  | none =>
    rw [hslice] at hexcerpt
    exact absurd hexcerpt htext
  | some middle =>
    rw [hslice, Option.getD_some] at hexcerpt
    obtain ⟨front, rest, hfile, hfront⟩ := Text.exists_of_slice? (hexcerpt ▸ hslice)
    have hstart : f.text.rowColumn n.span.startByte = front.endPlace := by
      rw [← hfront, hfile, Text.rowColumn_byteSize]
    refine ⟨front, rest, hfile, hfront, ?_, ?_⟩
    · rw [← hstart]
      exact h.line
    · rw [← hstart]
      exact h.column

end SourceFile.Cut

namespace Program
variable {p : Program} {settings : Settings} {name : String} {kind : SymbolKind} {c : Contract}
  {scope : Option String} {n : Node} {u : Usage}

/-- What a usage takes from its node and from the row that holds the name. -/
theorem place_of_usageIn? (h : p.usageIn? settings name kind c scope n = some u) :
    Text.contains n.text name.toList = true ∧ u.name = name ∧ u.location.path = n.span.path ∧
      ∃ row offset, (firstOccurrence? name.toList n.text).getD (0, 0) = (row, offset) ∧
        u.location.line = (n.span.line + row) % UInt32.size ∧
        u.location.column =
          (if row = 0 then n.span.column + offset else offset + 1) % UInt32.size := by
  simp only [usageIn?] at h
  obtain ⟨hcontains, h⟩ := Option.ite_none_left_eq_some.1 h
  cases h
  exact ⟨by simpa using hcontains, rfl, rfl, _, _, rfl, rfl, rfl⟩

/-- A usage in a node that is cut out of a file points into the file. The words of lines and columns
are wide enough for all files that are not refused. -/
theorem pointsInto_of_usageIn? {f : SourceFile} (hcut : f.Cut n.place) (hfeed : '\n' ∉ name.toList)
    (hne : name.toList ≠ []) (hend : name.toList.getLast? ≠ some '\r')
    (h : p.usageIn? settings name kind c scope n = some u) : u.PointsInto f n := by
  obtain ⟨hcontains, rfl, hpath, row, offset, hat, hline, hcolumn⟩ := place_of_usageIn? h
  obtain ⟨before, after, hfirst⟩ := Text.exists_cut?_of_contains hcontains
  rw [firstOccurrence?_eq hfeed hne hend, hfirst, Option.map_some, Option.getD_some] at hat
  have hoccurs := Text.firstIn_of_cut? hfirst
  have htext : n.text ≠ [] := by
    intro hnil
    rw [hnil, Text.cut?_nil hne] at hfirst
    cases hfirst
  obtain ⟨front, rest, hfile, hfront, hspanLine, hspanColumn⟩ := hcut.exists_front htext
  have hsplit : f.text = (front ++ before) ++ (u.name.toList ++ (after ++ rest)) := by
    rw [hfile, hoccurs.1]
    simp only [List.append_assoc]
  have hplace : (front ++ before).endPlace =
      (front.endPlace.1 + row, if row = 0 then front.endPlace.2 + offset else offset) := by
    rw [Text.endPlace_append, hat]
  have hsize : (front ++ before).byteSize + 1 < UInt32.size := by
    have hlimit := SourceFile.byteSize_lt hcut.accepted
    have hname : Text.byteSize u.name.toList ≠ 0 := fun he => hne (Text.eq_nil_of_byteSize he)
    rw [hsplit, Text.byteSize_append, Text.byteSize_append u.name.toList] at hlimit
    omega
  obtain ⟨hrowLe, hcolumnLe⟩ := (front ++ before).endPlace_le
  rw [hplace] at hrowLe hcolumnLe
  refine ⟨hpath.trans hcut.path, front, before, after, rest, _, _, hfile, hfront, hoccurs, ?_, ?_,
    hsplit ▸ Text.textFrom?_endPlace (front ++ before) _⟩
  · rw [hline, hplace, hspanLine, Nat.add_right_comm, Nat.mod_eq_of_lt]
    omega
  · have hmoved : (if row = 0 then front.endPlace.2 + 1 + offset else offset + 1) =
        (if row = 0 then front.endPlace.2 + offset else offset) + 1 := by
      split <;> omega
    rw [hcolumn, hplace, hspanColumn, hmoved, Nat.mod_eq_of_lt]
    omega

/-- The name of a usage is the one that the target spells. -/
theorem exists_candidate_of_mem_usages [SearchEngine] {target : String} {direction : Direction}
    {filters : Filters} {found : Usages}
    (h : p.usages settings target kind direction filters = .ok found) (hu : u ∈ found.usages) :
    ∃ q, QualifiedName.Spells target q ∧ ∃ c ∈ p.contracts, ∃ candidate ∈ c.candidates,
      p.usageIn? settings q.name kind c candidate.1 candidate.2 = some u := by
  rw [usages_eq] at h
  rcases p.allUsages_cases settings target kind filters with
    ⟨error, herror⟩ | ⟨q, anchor, rest, hq, hanchor, hall⟩
  · rw [herror] at h
    cases h
  · rw [hall] at h
    cases h
    have hmem : anchor ∈ p.declarationsOf q kind := by
      rw [hanchor]
      exact List.mem_cons_self
    rw [declarationsOf_eq, List.mem_filter, QualifiedName.means, Bool.and_eq_true,
      beq_iff_eq] at hmem
    obtain ⟨c, hc, hu⟩ := List.mem_flatMap.1 (List.mem_of_mem_take hu)
    obtain ⟨candidate, hcandidate, hu⟩ := List.mem_filterMap.1 hu
    rw [hmem.2.1] at hu
    exact ⟨q, QualifiedName.ofText?_eq_some_iff.1 hq, c, List.mem_of_mem_filter hc, candidate,
      List.mem_of_mem_filter hcandidate, hu⟩

end Program

namespace Contract

/-- Candidates are nodes of the contract's code. -/
theorem exists_tree_of_mem_candidates {c : Contract} {candidate : Option String × Node}
    (h : candidate ∈ c.candidates) : ∃ code ∈ c.trees, candidate.2 ∈ code.2.descendants := by
  suffices hroot : ∃ n ∈ c.trees.map Prod.snd, candidate.2 ∈ n.descendants by
    obtain ⟨n, hn, hmem⟩ := hroot
    obtain ⟨code, hcode, rfl⟩ := List.mem_map.1 hn
    exact ⟨code, hcode, hmem⟩
  rw [map_snd_trees]
  rcases List.mem_append.1 h with h | h
  · obtain ⟨⟨name, body⟩, hbody, h⟩ := List.mem_flatMap.1 h
    cases body with
    | none => cases h
    | some n =>
      obtain ⟨m, hm, rfl⟩ := List.mem_map.1 h
      refine ⟨n, List.mem_append_left _ ?_, n.candidates_sublist.subset hm⟩
      rw [List.mem_append] at hbody ⊢
      refine hbody.imp (fun hbody => ?_) fun hbody => ?_
      all_goals
        obtain ⟨d, hd, he⟩ := List.mem_map.1 hbody
        exact List.mem_filterMap.2 ⟨d, hd, congrArg Prod.snd he⟩
  · obtain ⟨n, hn, rfl⟩ := List.mem_map.1 h
    exact ⟨n, List.mem_append_right _ hn, n.self_mem_descendants⟩

end Contract

namespace Program

/-- Whatever files are loaded and whatever is searched for: a usage whose name has no line feed is
found in a candidate of some contract, and points at the first occurrence of the name in the text of
this node, as the node's file has it. -/
theorem usages_point_at_name [SearchEngine] {loads : List (Option Settings × SourceUnit)}
    {settings : Settings} {target : String} {kind : SymbolKind} {direction : Direction}
    {filters : Filters} {found : Usages}
    (h : (enterAll {} loads).usages settings target kind direction filters = .ok found) {u : Usage}
    (hu : u ∈ found.usages) (hfeed : '\n' ∉ u.name.toList) :
    ∃ c ∈ (enterAll {} loads).contracts, ∃ candidate ∈ c.candidates,
      (enterAll {} loads).usageIn? settings u.name kind c candidate.1 candidate.2 = some u ∧
      ∃ f, (enterAll {} loads).file? candidate.2.span.file = some f ∧
        u.PointsInto f candidate.2 := by
  obtain ⟨q, hq, c, hc, candidate, hcandidate, husage⟩ := exists_candidate_of_mem_usages h hu
  have hname : u.name = q.name := (place_of_usageIn? husage).2.1
  rw [← hname] at husage
  obtain ⟨code, hcode, hmem⟩ := Contract.exists_tree_of_mem_candidates hcandidate
  obtain ⟨f, hf, hcut⟩ := everywhere_cut loads c hc code hcode _ (List.mem_map_of_mem hmem)
  have hne : u.name.toList ≠ [] := hname ▸ hq.name_ne_nil
  have hend : u.name.toList.getLast? ≠ some '\r' :=
    Text.getLast?_ne_of_trimEnd (hname ▸ hq.trimEnd_name) (by decide)
  exact ⟨c, hc, candidate, hcandidate, husage, f, hf,
    pointsInto_of_usageIn? hcut hfeed hne hend husage⟩

end Program

namespace Sample

/-- A statement over two rows, the second of which has the name of the function behind a character
of more than one byte. -/
def spread : SourceUnit where
  path := "Sum.sol"
  text := ("/* é */ contract Sum \x7b\r\n  function add() public \x7b log(\r\n" ++
    "    \"é\", add); \x7d\r\n\x7d").toList
  tree :=
    let argument (t : ParseTree) :=
      form "call_argument" t.start t.stop [form "expression" t.start t.stop [t]]
    let call := form "call_expression" 51 71
      [form "expression" 51 54 [form "identifier" 51 54], token "(" 54 55,
        argument (form "string_literal" 61 65), token "," 65 66, argument (form "identifier" 67 70),
        token ")" 70 71] [("function", 0)]
    let statement := form "expression_statement" 51 72
      [form "expression" 51 71 [call], token ";" 71 72]
    let add := form "function_definition" 27 74
      [token "function" 27 35, form "identifier" 36 39, token "(" 39 40, token ")" 40 41,
        form "visibility" 42 48 [token "public" 42 48],
        form "function_body" 49 74
          [token "\x7b" 49 50, form "statement" 51 72 [statement], token "\x7d" 73 74]]
      [("body", 5), ("name", 1)]
    form "source_file" 0 77 [form "comment" 0 8, form "contract_declaration" 9 77
      [token "contract" 9 17, form "identifier" 18 21,
        form "contract_body" 22 77 [token "\x7b" 22 23, add, token "\x7d" 76 77]]
      [("body", 2), ("name", 1)]]

/-- That file, loaded behind another one that is analysed. -/
def spreadLoads : List (Option Settings × SourceUnit) := [(some {}, base), (none, spread)]

end Sample

namespace Program

theorem usages_point_at_name_sample :
    let _ : SearchEngine := ⟨fun _ => true⟩
    let p := enterAll {} Sample.spreadLoads
    ∃ found u, p.usages {} " Sum.add " .function .both {} = .ok found ∧ u ∈ found.usages ∧
      u.name = "add" ∧ '\n' ∉ u.name.toList ∧ u.location.line = 3 ∧ u.location.column = 11 ∧
      ∃ c ∈ p.contracts, ∃ candidate ∈ c.candidates,
        p.usageIn? {} u.name .function c candidate.1 candidate.2 = some u ∧
        ∃ f, p.file? candidate.2.span.file = some f ∧ u.PointsInto f candidate.2 := by
  intro _ p
  have hrun : ∃ found ∈ (p.usages {} " Sum.add " .function .both {}).toOption, ∃ u ∈ found.usages,
      u.name = "add" ∧ '\n' ∉ u.name.toList ∧ u.location.line = 3 ∧ u.location.column = 11 := by
    decide +kernel
  obtain ⟨found, hfound, u, hu, hname, hfeed, hline, hcolumn⟩ := hrun
  have hfound := Sample.eq_ok_of_mem_toOption hfound
  exact ⟨found, u, hfound, hu, hname, hfeed, hline, hcolumn, usages_point_at_name hfound hu hfeed⟩

end Program

end ContractAtlas
