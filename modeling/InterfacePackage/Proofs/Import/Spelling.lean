import InterfacePackage.Proofs.Import.Fragment
import InterfacePackage.Proofs.Import.Shadowed

/-!
# Spellings of a file

One relative file may be written with more slashes than needed and with dots between them. The
anchor is looked up in the text as it is written and the candidate is cut from that text, but an
anchor without slashes and dots is found in the same component of every spelling. From there on only
the pieces count. Main statements: `pieces_candidate` and `relocateSource_forgets_spelling`.
-/

namespace InterfacePackage

namespace Path

variable {p q : Path}

/-- A path without slashes is the only piece that it may have. -/
theorem pieces_of_notMem (h : '/' ∉ p) : p.pieces = (Component.ofPiece? p).toList := by
  unfold pieces
  rw [Text.split_of_notMem h]
  cases hcomponent : Component.ofPiece? p with
  | none => exact List.filterMap_cons_none hcomponent
  | some c => exact List.filterMap_cons_some hcomponent

/-- A relative path is made of its pieces, up to the dot that may open it. -/
theorem filter_components (h : p.isAbsolute = false) :
    p.components.filter (· ≠ .here) = p.pieces := by
  have hopening : p.opening.filter (· ≠ .here) = [] := by
    unfold opening
    rw [h, if_neg Bool.false_ne_true]
    split <;> rfl
  have hpieces : p.pieces.filter (· ≠ .here) = p.pieces := by
    apply List.filter_eq_self.2
    intro c hc
    apply decide_eq_true
    intro hhere
    have hpiece := isPiece_of_mem_pieces hc
    rw [hhere] at hpiece
    exact hpiece
  rw [components_eq, List.filter_append, hopening, hpieces, List.nil_append]

/-- What is kept of a relative path is found from its pieces. -/
theorem kept_of_relative (h : p.isAbsolute = false) : p.kept = p.pieces.foldl normalStep [] := by
  rw [kept_eq, foldl_opening_of_relative h]

/-- So is the way between two relative paths. -/
theorem relativeTo_of_pieces {base base' : Path} (hp : p.isAbsolute = false)
    (hq : q.isAbsolute = false) (hpieces : p.pieces = q.pieces) (hbase : base.isAbsolute = false)
    (hbase' : base'.isAbsolute = false) (hpieces' : base.pieces = base'.pieces) :
    relativeTo p base = relativeTo q base' := by
  have htarget : p.kept = q.kept := by rw [kept_of_relative hp, kept_of_relative hq, hpieces]
  have hfrom : base.kept = base'.kept := by
    rw [kept_of_relative hbase, kept_of_relative hbase', hpieces']
  unfold relativeTo
  rw [normalize_components, normalize_components, normalize_components, normalize_components,
    htarget, hfrom]

end Path

namespace Import

/-! ## The candidate -/

/-- Components with all from the anchor on replaced by a destination, which goes on where the text
of the component with the anchor is cut. -/
def splice (destination anchor : Text) : List Component → List Component
  | [] => []
  | c :: cs =>
    match Text.cutAt anchor c.text with
    | some (before, _) => Path.pieces (before ++ destination)
    | none => c :: splice destination anchor cs

section

variable {anchor : Text} (destination : Text)

/-- An anchor that stands before a slash is replaced with all that follows the slash. -/
theorem candidate_slash_of_some {front before after : Text} (hslash : '/' ∉ anchor)
    (h : Text.cutAt anchor front = some (before, after)) (back : Text) :
    candidate (front ++ '/' :: back) destination anchor = before ++ destination := by
  unfold candidate
  rw [Text.cutAt_apart_of_some hslash h]

/-- If it does not stand there, what stands before the slash stays. -/
theorem candidate_slash_of_none {front : Text} (hslash : '/' ∉ anchor)
    (h : Text.cutAt anchor front = none) (back : Text) :
    candidate (front ++ '/' :: back) destination anchor
      = front ++ '/' :: candidate back destination anchor := by
  unfold candidate
  rw [Text.cutAt_apart_of_none hslash h]
  cases Text.cutAt anchor back with
  | none => rfl
  | some sides => exact List.append_assoc front _ destination

/-- The anchor is not found in a piece that stands for no component. -/
theorem cutAt_of_ofPiece?_eq_none {piece : Text} (hne : anchor ≠ []) (hdot : '.' ∉ anchor)
    (h : Component.ofPiece? piece = none) : Text.cutAt anchor piece = none := by
  apply Text.cutAt_eq_none_iff.2
  intro hoccurs
  have hidle : ∀ c ∈ piece, c = '.' := by
    unfold Component.ofPiece? at h
    split at h
    · exact fun c hc => absurd hc List.not_mem_nil
    · exact fun c hc => List.mem_singleton.1 hc
    · cases h
    · cases h
  obtain ⟨c, hc⟩ := List.exists_mem_of_ne_nil anchor hne
  exact hdot (hidle c (hoccurs.subset hc) ▸ hc)

/-- A piece without the anchor stays, and what follows it is spliced. -/
theorem splice_piece_of_none {piece : Text} (hpiece : '/' ∉ piece)
    (hcut : Text.cutAt anchor piece = none) (cs : List Component) :
    splice destination anchor (Path.pieces piece ++ cs)
      = Path.pieces piece ++ splice destination anchor cs := by
  rw [Path.pieces_of_notMem hpiece]
  cases hcomponent : Component.ofPiece? piece with
  | none => rfl
  | some c =>
    show splice destination anchor (c :: cs) = c :: splice destination anchor cs
    rw [splice, Path.text_of_ofPiece? hcomponent, hcut]

/-- A piece with the anchor is cut there, and what follows it is dropped. -/
theorem splice_piece_of_some {piece before after : Text} (hne : anchor ≠ []) (hdot : '.' ∉ anchor)
    (hpiece : '/' ∉ piece) (hcut : Text.cutAt anchor piece = some (before, after))
    (cs : List Component) :
    splice destination anchor (Path.pieces piece ++ cs) = Path.pieces (before ++ destination) := by
  rw [Path.pieces_of_notMem hpiece]
  cases hcomponent : Component.ofPiece? piece with
  | none =>
    rw [cutAt_of_ofPiece?_eq_none hne hdot hcomponent] at hcut
    cases hcut
  | some c =>
    show splice destination anchor (c :: cs) = Path.pieces (before ++ destination)
    rw [splice, Path.text_of_ofPiece? hcomponent, hcut]

/-- The components of the candidate are found from those of the file. -/
theorem pieces_candidate (hne : anchor ≠ []) (hslash : '/' ∉ anchor) (hdot : '.' ∉ anchor)
    (file : Path) : Path.pieces (candidate file destination anchor)
      = splice destination anchor (Path.pieces file) := by
  have hraw : ∀ raw : List Text, raw ≠ [] → (∀ piece ∈ raw, '/' ∉ piece) →
      Path.pieces (candidate (Text.join ['/'] raw) destination anchor)
        = splice destination anchor (Path.pieces (Text.join ['/'] raw)) := by
    intro raw
    -- on the pieces as they are written, the first one of which has the anchor or stays
    induction raw with
    | nil => exact fun h => absurd rfl h
    | cons piece raw ih =>
      intro _ hfree
      have hpiece := hfree piece List.mem_cons_self
      by_cases hnil : raw = []
      · rw [hnil, Text.join_singleton, ← List.append_nil (Path.pieces piece)]
        cases hcut : Text.cutAt anchor piece with
        | none => rw [splice_piece_of_none destination hpiece hcut, candidate, hcut, splice,
            List.append_nil]
        | some sides => rw [splice_piece_of_some destination hne hdot hpiece hcut, candidate, hcut]
      · have hrest := ih hnil fun other hother => hfree other (List.mem_cons_of_mem _ hother)
        rw [Text.join_cons hnil, List.append_assoc, List.singleton_append, Path.pieces_slash]
        cases hcut : Text.cutAt anchor piece with
        | none => rw [candidate_slash_of_none destination hslash hcut, Path.pieces_slash, hrest,
            splice_piece_of_none destination hpiece hcut]
        | some sides => rw [candidate_slash_of_some destination hslash hcut,
            splice_piece_of_some destination hne hdot hpiece hcut]
  have hfile := hraw (Text.split '/' file) (Text.split_ne_nil '/' file)
    fun piece hpiece => Text.notMem_of_mem_split hpiece
  rwa [Text.join_split] at hfile

/-- The candidate of a relative file is relative, if the destination is. -/
theorem isAbsolute_candidate {file : Path} (hfile : file.isAbsolute = false)
    (hdestination : Path.isAbsolute destination = false) :
    Path.isAbsolute (candidate file destination anchor) = false := by
  unfold candidate
  cases hcut : Text.cutAt anchor file with
  | none => exact hfile
  | some sides =>
    obtain ⟨before, after⟩ := sides
    show Path.isAbsolute (before ++ destination) = false
    by_cases hnil : before = []
    · rw [hnil]
      exact hdestination
    · rw [Text.eq_of_cutAt hcut, List.append_assoc, Path.isAbsolute_append hnil] at hfile
      rw [Path.isAbsolute_append hnil, hfile]

end

/-! ## The directory -/

/-- The text of a path ends in a name, with nothing behind it. -/
def EndsIn (file : Path) (name : Text) : Prop :=
  IsNormal name ∧ (Text.split '/' file).getLast? = some name

/-- A file that ends in a name is that name in its directory. -/
theorem EndsIn.eq_or {file : Path} {name : Text} (h : EndsIn file name) :
    (file = name ∧ directory file = []) ∨ file = directory file ++ '/' :: name := by
  obtain ⟨hname, hlast⟩ := h
  obtain ⟨front, hsplit⟩ := List.getLast?_eq_some_iff.1 hlast
  have hfile := Text.join_split '/' file
  rw [hsplit] at hfile
  by_cases hnil : front = []
  · rw [hnil, List.nil_append, Text.join_singleton] at hfile
    exact .inl ⟨hfile.symm, directory_eq_iff.2 (.inr ⟨hfile ▸ hname.2.2.2, rfl⟩)⟩
  · rw [Text.join_append_singleton hnil, List.append_assoc, List.singleton_append] at hfile
    have hdirectory := directory_eq_iff.2 (.inl ⟨name, hname.2.2.2, hfile.symm⟩)
    exact .inr (by rw [hdirectory]; exact hfile.symm)

/-- The components of the directory are those of the file without its name. -/
theorem EndsIn.pieces_directory {file : Path} {name : Text} (h : EndsIn file name) :
    Path.pieces (directory file) = (Path.pieces file).dropLast := by
  have hname : Path.pieces name = [.name name] := by
    rw [Path.pieces_of_notMem h.1.2.2.2, h.1.ofPiece?]
    rfl
  rcases h.eq_or with ⟨hfile, hdirectory⟩ | hfile
  · rw [hdirectory, hfile, hname]
    rfl
  · have hpieces : Path.pieces file = Path.pieces (directory file) ++ [.name name] := by
      rw [← hname, ← Path.pieces_slash, ← hfile]
    rw [hpieces, List.dropLast_concat]

/-- The directory of a relative file is relative. -/
theorem EndsIn.isAbsolute_directory {file : Path} {name : Text} (h : EndsIn file name)
    (hfile : file.isAbsolute = false) : (directory file).isAbsolute = false := by
  by_cases hnil : directory file = []
  · rw [hnil]
    rfl
  · rcases h.eq_or with ⟨-, hdirectory⟩ | hwhole
    · exact absurd hdirectory hnil
    · rw [hwhole, Path.isAbsolute_append hnil] at hfile
      exact hfile

/-! ## Spellings -/

/-- Two relative files with the same components up to dots, and with the same name at their ends. -/
structure SpellsSame (p q : Path) : Prop where
  left : p.isAbsolute = false
  right : q.isAbsolute = false
  components : p.components.filter (· ≠ .here) = q.components.filter (· ≠ .here)
  name : ∃ n, EndsIn p n ∧ EndsIn q n

/-- The fragment for an alias is the same for two spellings of a file. -/
theorem SpellsSame.relativePrefix_eq {p q : Path} (h : SpellsSame p q) {destination anchor : Text}
    (hdestination : Path.isAbsolute destination = false) (hne : anchor ≠ []) (hslash : '/' ∉ anchor)
    (hdot : '.' ∉ anchor) :
    relativePrefix p destination anchor = relativePrefix q destination anchor := by
  obtain ⟨n, hp, hq⟩ := h.name
  have hpieces : Path.pieces p = Path.pieces q := by
    rw [← Path.filter_components h.left, h.components, Path.filter_components h.right]
  have hcandidate : Path.pieces (candidate p destination anchor)
      = Path.pieces (candidate q destination anchor) := by
    rw [pieces_candidate destination hne hslash hdot, pieces_candidate destination hne hslash hdot,
      hpieces]
  have hdirectory : Path.pieces (directory p) = Path.pieces (directory q) := by
    rw [hp.pieces_directory, hq.pieces_directory, hpieces]
  have hway := Path.relativeTo_of_pieces (isAbsolute_candidate destination h.left hdestination)
    (isAbsolute_candidate destination h.right hdestination) hcandidate
    (hp.isAbsolute_directory h.left) (hq.isAbsolute_directory h.right) hdirectory
  rw [Import.relativePrefix_eq, Import.relativePrefix_eq, hway]

/-- Files with the same fragments have their sources relocated alike. -/
theorem relocateSource_of_relativePrefix {p q : Path} {table : Table} {layout : Layout}
    (h : ∀ r ∈ table, relativePrefix p r.destination layout.anchor
      = relativePrefix q r.destination layout.anchor) (source : Text) :
    relocateSource source p table layout = relocateSource source q table layout := by
  have hline : ∀ line, relocateLine line p table layout = relocateLine line q table layout := by
    intro line
    unfold relocateLine
    split
    · cases hresolve : table.resolve line with
      | none => rfl
      | some r =>
        dsimp only
        rw [relocate, relocate, h r (List.mem_of_find?_eq_some hresolve)]
    · rfl
  unfold relocateSource
  simp only [hline]

/-- The spelling of a file does not matter. Dots and more slashes than needed in the path of a
source change nothing in what becomes of it, if its name ends the path and the anchor lies within a
component. -/
theorem relocateSource_forgets_spelling {p q : Path} (h : SpellsSame p q) {table : Table}
    {layout : Layout} (htable : ∀ r ∈ table, Path.isAbsolute r.destination = false)
    (hne : layout.anchor ≠ []) (hslash : '/' ∉ layout.anchor) (hdot : '.' ∉ layout.anchor)
    (source : Text) :
    relocateSource source p table layout = relocateSource source q table layout := by
  apply relocateSource_of_relativePrefix
  intro r hr
  exact h.relativePrefix_eq (htable r hr) hne hslash hdot

/-- Dots and slashes on both sides of an anchor in the middle of a component, and a step up behind
it. -/
theorem relocateSource_forgets_spelling_dotted :
    relocateSource "import '@i/A.sol';\n" "./pkg//./solidity-lib/.//x/../I.sol"
        [⟨"@i/", "solidity/interfaces/"⟩] {}
      = relocateSource "import '@i/A.sol';\n" "pkg/solidity-lib/x/../I.sol"
        [⟨"@i/", "solidity/interfaces/"⟩] {} ∧
      (relocateSource "import '@i/A.sol';\n" "./pkg//./solidity-lib/.//x/../I.sol"
        [⟨"@i/", "solidity/interfaces/"⟩] {}).text
        = "import '../solidity/interfaces/A.sol';\n" := by
  have hends : EndsIn "./pkg//./solidity-lib/.//x/../I.sol" "I.sol" ∧
      EndsIn "pkg/solidity-lib/x/../I.sol" "I.sol" :=
    ⟨⟨by decide, by decide +kernel⟩, by decide, by decide +kernel⟩
  have hspells : SpellsSame "./pkg//./solidity-lib/.//x/../I.sol" "pkg/solidity-lib/x/../I.sol" :=
    ⟨by decide, by decide, by decide +kernel, "I.sol", hends⟩
  refine ⟨?_, by decide +kernel⟩
  exact @relocateSource_forgets_spelling _ _ hspells _ {} (by decide) (by decide) (by decide)
    (by decide) "import '@i/A.sol';\n"

end Import

end InterfacePackage
