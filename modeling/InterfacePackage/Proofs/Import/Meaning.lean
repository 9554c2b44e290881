import InterfacePackage.Import.Source
import InterfacePackage.Proofs.Path.Way

/-!
# What a relocated import means

A tree of sources in which aliases stand for places is copied elsewhere. The fragment put in place
of an alias is the way from the importing file's directory to what the alias stands for, and that
way is the same below any directory that the tree is copied to. Main statement:
`relocateLine_keeps_meaning`.
-/

namespace InterfacePackage.Import

/-! ## Fragments -/

/-- A way written as a fragment of an import: with a slash at its end, and `./` if it has no
steps. -/
def written (way : List Component) : Text :=
  match Path.render way with
  | [] => "./"
  | steps => steps ++ ['/']

/-- The fragment for an alias of `target` in a file of the directory `base`, both below a common
directory. -/
def fragment (base target : List Text) : Text := written (Path.way base target)

/-- What replaces an alias is the written way from the file's directory to the candidate. -/
theorem relativePrefix_eq (file : Path) (destination anchor : Text) :
    relativePrefix file destination anchor
      = written (Path.relativeTo (candidate file destination anchor) (directory file)) := rfl

/-- A written way has the steps it was written from. -/
theorem pieces_written {steps : List Component} (h : ∀ c ∈ steps, Path.IsPiece c) :
    Path.pieces (written steps) = steps := by
  cases hrender : Path.render steps with
  | nil =>
    rw [written, hrender, Path.eq_nil_of_render_eq_nil h hrender]
    rfl
  | cons c rest =>
    rw [written, hrender, Path.pieces_trailing, ← hrender, Path.pieces_render h]

/-- A written way is a relative path. -/
theorem isAbsolute_written {steps : List Component} (h : ∀ c ∈ steps, Path.IsPiece c) :
    Path.isAbsolute (written steps) = false := by
  cases hrender : Path.render steps with
  | nil =>
    rw [written, hrender]
    rfl
  | cons c rest =>
    rw [written, hrender, Path.isAbsolute_append (by simp), ← hrender, Path.isAbsolute_render h]

/-- From any directory, a fragment leads from the one place below it to the other. -/
theorem normalize_fragment (root : Path) {base target : List Text}
    (hbase : ∀ n ∈ base, IsNormal n) (htarget : ∀ n ∈ target, IsNormal n) :
    Path.normalize ((root.join (Text.join ['/'] base)).join (fragment base target)).components
      = Path.normalize (root.join (Text.join ['/'] target)).components := by
  have hpieces := @Path.isPiece_of_mem_way base _ htarget
  have hkept : ((root.join (Text.join ['/'] base)).join (fragment base target)).kept
      = (root.join (Text.join ['/'] target)).kept :=
    calc ((root.join (Text.join ['/'] base)).join (fragment base target)).kept
        = (Path.way base target).foldl Path.normalStep (root.join (Text.join ['/'] base)).kept := by
          rw [fragment, Path.kept_join (isAbsolute_written hpieces), pieces_written hpieces]
      _ = (Path.way base target).foldl Path.normalStep
          ((Path.names base).reverse ++ root.kept) := by
          rw [Path.kept_join (Path.isAbsolute_join_names hbase), Path.pieces_join_names hbase,
            Path.foldl_names]
      _ = (Path.names target).reverse ++ root.kept := Path.foldl_way base target root.kept
      _ = (root.join (Text.join ['/'] target)).kept := by
          rw [Path.kept_join (Path.isAbsolute_join_names htarget), Path.pieces_join_names htarget,
            Path.foldl_names]
  rw [Path.normalize_components, Path.normalize_components, hkept]

/-! ## The file, its directory and the candidate -/

/-- A file somewhere below a directory. -/
def fileBelow (root : Path) (inner : List Text) (last : Text) : Path :=
  root ++ '/' :: Text.join ['/'] (inner ++ [last])

/-- What is kept of a place below a directory, with or without a slash at its end. -/
theorem kept_below {root : Path} (hroot : root ≠ []) {ns : List Text} (h : ∀ n ∈ ns, IsNormal n)
    {slash : Text} (hslash : slash = [] ∨ slash = ['/']) :
    Path.kept (root ++ '/' :: Text.join ['/'] ns ++ slash)
      = (Path.names ns).reverse ++ root.kept := by
  have hpieces : Path.pieces (Text.join ['/'] ns ++ slash) = Path.names ns := by
    rcases hslash with rfl | rfl
    · rw [List.append_nil, Path.pieces_join_names h]
    · rw [Path.pieces_trailing, Path.pieces_join_names h]
  rw [List.append_assoc, List.cons_append, Path.kept_slash hroot, hpieces, Path.foldl_names]

/-- What is kept of the directory of a file below a directory. -/
theorem kept_directory_fileBelow {root : Path} (hroot : root ≠ []) {inner : List Text} {last : Text}
    (hinner : ∀ n ∈ inner, IsNormal n) (hlast : IsNormal last) :
    (directory (fileBelow root inner last)).kept = (Path.names inner).reverse ++ root.kept := by
  -- right in the directory, the last slash of the file is the one behind `root`
  by_cases hnil : inner = []
  · subst hnil
    have hdirectory : directory (fileBelow root [] last) = root := by
      simp only [directory, fileBelow, List.nil_append, Text.join_singleton]
      rw [Text.beforeLast_append hlast.2.2.2]
      rfl
    rw [hdirectory]
    rfl
  · have hsplit : fileBelow root inner last
        = (root ++ '/' :: Text.join ['/'] inner) ++ '/' :: last := by
      rw [fileBelow, Text.join_append_singleton hnil]
      simp
    have hdirectory : directory (fileBelow root inner last)
        = root ++ '/' :: Text.join ['/'] inner ++ [] := by
      rw [hsplit, directory, Text.beforeLast_append hlast.2.2.2, List.append_nil]
      rfl
    rw [hdirectory, kept_below hroot hinner (.inl rfl)]

/-- The candidate for an alias starts like the file up to the anchor. -/
theorem candidate_eq {above rest anchor : Text} (h : Text.IsFirst anchor above rest)
    (destination : Text) : candidate (above ++ anchor ++ rest) destination anchor
      = above ++ destination := by
  rw [candidate, Text.cutAt_eq_some_iff.2 ⟨rfl, h⟩]

/-- The fragment for an alias of a place below the directory that the anchor stands in. -/
theorem relativePrefix_fileBelow {above rooted last anchor rest slash : Text}
    {inner sub : List Text} (hroot : above ++ rooted ≠ [])
    (hinner : ∀ n ∈ inner, IsNormal n) (hlast : IsNormal last) (hsub : ∀ n ∈ sub, IsNormal n)
    (hslash : slash = [] ∨ slash = ['/'])
    (hfile : fileBelow (above ++ rooted) inner last = above ++ anchor ++ rest)
    (hanchor : Text.IsFirst anchor above rest) :
    relativePrefix (fileBelow (above ++ rooted) inner last)
        (rooted ++ '/' :: Text.join ['/'] sub ++ slash) anchor
      = fragment inner sub := by
  have hcandidate : candidate (fileBelow (above ++ rooted) inner last)
        (rooted ++ '/' :: Text.join ['/'] sub ++ slash) anchor
      = (above ++ rooted) ++ '/' :: Text.join ['/'] sub ++ slash := by
    rw [hfile, candidate_eq hanchor]
    simp only [List.append_assoc]
  -- both normalised paths start with what is kept of the directory, and that drops out
  have hway : Path.relativeTo ((above ++ rooted) ++ '/' :: Text.join ['/'] sub ++ slash)
      (directory (fileBelow (above ++ rooted) inner last)) = Path.way inner sub := by
    rw [Path.relativeTo, Path.normalize_components, Path.normalize_components,
      kept_below hroot hsub hslash, kept_directory_fileBelow hroot hinner hlast,
      List.reverse_append, List.reverse_append, List.reverse_reverse, List.reverse_reverse,
      Path.difference_names]
    rfl
  rw [relativePrefix_eq, hcandidate, hway, fragment]

/-! ## Relocated lines -/

/-- A line without the marker is not collapsed. -/
theorem collapse_of_not_contains {line marker : Text} (h : Text.contains line marker = false) :
    collapse line marker = line := by
  rw [Text.contains, Option.isSome_eq_false_iff, Option.isNone_iff_eq_none] at h
  rw [collapse, h]

/-- The first occurrence of a pattern is replaced. -/
theorem replaceFirst_of_isFirst {pattern before after : Text}
    (h : Text.IsFirst pattern before after) (replacement : Text) :
    Text.replaceFirst (before ++ pattern ++ after) pattern replacement
      = before ++ replacement ++ after := by
  rw [Text.replaceFirst, Text.cutAt_eq_some_iff.2 ⟨rfl, h⟩]

/-- Relocation keeps what an import means. In a file below the directory `above ++ rooted`, where
the anchor first occurs right after `above`, an alias of a place `sub` below that directory is
replaced by a fragment that is found from the file's own directory `inner` and `sub` alone. Read
from `inner` below the directory itself or below any directory `copy`, it leads to `sub` there. -/
theorem relocateLine_keeps_meaning {above rooted last origin before after rest slash : Text}
    {inner sub : List Text} {table : Table} {layout : Layout} (copy : Path)
    (hroot : above ++ rooted ≠ [])
    (hinner : ∀ n ∈ inner, IsNormal n) (hlast : IsNormal last) (hsub : ∀ n ∈ sub, IsNormal n)
    (hslash : slash = [] ∨ slash = ['/'])
    (hfile : fileBelow (above ++ rooted) inner last = above ++ layout.anchor ++ rest)
    (hanchor : Text.IsFirst layout.anchor above rest)
    (hstatement : isStatement (before ++ origin ++ after) = true)
    (hresolve : table.resolve (before ++ origin ++ after)
      = some ⟨origin, rooted ++ '/' :: Text.join ['/'] sub ++ slash⟩)
    (horigin : Text.IsFirst origin before after)
    (hmarker : Text.contains (relocate (before ++ origin ++ after)
      (fileBelow (above ++ rooted) inner last)
      ⟨origin, rooted ++ '/' :: Text.join ['/'] sub ++ slash⟩ layout.anchor) layout.modulesMarker
        = false) :
    relocateLine (before ++ origin ++ after) (fileBelow (above ++ rooted) inner last) table layout
        = before ++ fragment inner sub ++ after
      ∧ Path.normalize ((copy.join (Text.join ['/'] inner)).join (fragment inner sub)).components
        = Path.normalize (copy.join (Text.join ['/'] sub)).components
      ∧ Path.normalize ((Path.join (above ++ rooted) (Text.join ['/'] inner)).join
          (fragment inner sub)).components
        = Path.normalize (Path.join (above ++ rooted) (Text.join ['/'] sub)).components := by
  refine ⟨?_, normalize_fragment copy hinner hsub, normalize_fragment _ hinner hsub⟩
  rw [relocateLine, if_pos hstatement, hresolve]
  dsimp only
  rw [collapse_of_not_contains hmarker, relocate, replaceFirst_of_isFirst horigin,
    relativePrefix_fileBelow hroot hinner hlast hsub hslash hfile hanchor]

/-- An import of a sibling directory, in a tree whose path opens with a dot. -/
theorem relocateLine_keeps_meaning_sibling :
    relocateLine (("import {IFee} from '" : Text) ++ "@interfaces/" ++ "IFee.sol';")
        (fileBelow (("./pkg/" : Text) ++ "solidity/interfaces") ["oracle", "v2"] "IOracle.sol")
        [⟨"@interfaces/",
          "solidity/interfaces" ++ '/' :: Text.join ['/'] ["oracle", "fees"] ++ "/"⟩] {}
        = ("import {IFee} from '" : Text) ++ fragment ["oracle", "v2"] ["oracle", "fees"]
          ++ "IFee.sol';"
      ∧ fragment ["oracle", "v2"] ["oracle", "fees"] = "../fees/"
      ∧ Path.normalize (Path.join (Path.join "npm/contracts" (Text.join ['/'] ["oracle", "v2"]))
          (fragment ["oracle", "v2"] ["oracle", "fees"])).components
        = Path.normalize
          (Path.join "npm/contracts" (Text.join ['/'] ["oracle", "fees"])).components := by
  have hanchor : Text.IsFirst "solidity" "./pkg/" "/interfaces/oracle/v2/IOracle.sol" :=
    @Text.isFirst_of_cutAt "solidity" "./pkg/solidity/interfaces/oracle/v2/IOracle.sol" _ _
      (by decide)
  have horigin : Text.IsFirst "@interfaces/" "import {IFee} from '" "IFee.sol';" :=
    @Text.isFirst_of_cutAt "@interfaces/" "import {IFee} from '@interfaces/IFee.sol';" _ _
      (by decide)
  have hmeaning := @relocateLine_keeps_meaning "./pkg/" "solidity/interfaces" "IOracle.sol"
    "@interfaces/" "import {IFee} from '" "IFee.sol';" "/interfaces/oracle/v2/IOracle.sol" "/"
    ["oracle", "v2"] ["oracle", "fees"]
    [⟨"@interfaces/", "solidity/interfaces" ++ '/' :: Text.join ['/'] ["oracle", "fees"] ++ "/"⟩]
    {} "npm/contracts" (by decide) (by decide) (by decide) (by decide) (.inr rfl) (by decide)
    hanchor (by decide +kernel) (by decide) horigin (by decide +kernel)
  exact ⟨hmeaning.1, by decide, hmeaning.2.1⟩

end InterfacePackage.Import
