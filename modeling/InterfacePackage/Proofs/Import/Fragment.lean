import InterfacePackage.Proofs.Import.Meaning
import InterfacePackage.Proofs.Path.Climbs

/-!
# Where a fragment leads

The fragment for an alias is found from two paths, the directory of the file and the candidate, and
walked from the one it leads to the other, whatever the two are written like. A relative directory
that climbs higher than a relative candidate is the exception: there is no way, and the candidate
itself stands in for one unless it does nothing but climb. Main statements:
`relativePrefix_leads_to_candidate` and `relativePrefix_of_relative`.
-/

namespace InterfacePackage.Import

/-! ## The two paths -/

/-- What stands before the last slash of a file; nothing, if it has no slash. -/
def IsDirectoryOf (dir file : Path) : Prop :=
  (∃ last, '/' ∉ last ∧ file = dir ++ '/' :: last) ∨ ('/' ∉ file ∧ dir = [])

/-- A file with all from the first anchor on replaced by a destination, and the file itself if the
anchor does not occur. -/
def IsCandidateOf (target file : Path) (destination anchor : Text) : Prop :=
  (∃ before after, file = before ++ anchor ++ after ∧ Text.IsFirst anchor before after ∧
    target = before ++ destination) ∨ (¬ anchor <:+: file ∧ target = file)

variable {file dir target : Path} {destination anchor : Text}

/-- The directory of a file is the text before its last slash. -/
theorem directory_eq_iff : directory file = dir ↔ IsDirectoryOf dir file := by
  constructor
  · rintro rfl
    cases hbefore : Text.beforeLast '/' file with
    | none => exact .inr ⟨Text.beforeLast_eq_none_iff.1 hbefore, by rw [directory, hbefore]; rfl⟩
    | some before =>
      obtain ⟨last, hlast, hfile⟩ := Text.beforeLast_eq_some_iff.1 hbefore
      exact .inl ⟨last, hlast, by rw [directory, hbefore]; exact hfile⟩
  · rintro (hlast | ⟨hslash, rfl⟩)
    · rw [directory, Text.beforeLast_eq_some_iff.2 hlast]
      rfl
    · rw [directory, Text.beforeLast_eq_none_iff.2 hslash]
      rfl

/-- The candidate is the file with the destination in place of all from the first anchor on. -/
theorem candidate_eq_iff :
    candidate file destination anchor = target ↔ IsCandidateOf target file destination anchor := by
  constructor
  · rintro rfl
    cases hcut : Text.cutAt anchor file with
    | none => exact .inr ⟨Text.cutAt_eq_none_iff.1 hcut, by rw [candidate, hcut]⟩
    | some sides =>
      obtain ⟨hfile, hfirst⟩ := Text.cutAt_eq_some_iff.1 hcut
      exact .inl ⟨sides.1, sides.2, hfile, hfirst, by rw [candidate, hcut]⟩
  · rintro (⟨before, after, rfl, hfirst, rfl⟩ | ⟨hfree, rfl⟩)
    · exact candidate_eq hfirst destination
    · rw [candidate, Text.cutAt_eq_none_iff.2 hfree]

/-! ## Walking a fragment -/

/-- A written way ends in a slash. -/
theorem getLast?_written (way : List Component) : (written way).getLast? = some '/' := by
  rw [written]
  split
  · rfl
  · exact List.getLast?_concat

/-- So does every fragment. -/
theorem getLast?_relativePrefix (file : Path) (destination anchor : Text) :
    (relativePrefix file destination anchor).getLast? = some '/' := by
  rw [relativePrefix_eq, getLast?_written]

/-- Going on by a written way leads where the way does. -/
theorem normalize_join_written {way : List Component}
    (h : Path.Leads (Path.normalize dir.components) way (Path.normalize target.components)) :
    Path.normalize (dir.join (written way)).components = Path.normalize target.components := by
  have hwalk := h.walk
  rw [Path.normalize_components, Path.normalize_components, List.reverse_reverse,
    List.reverse_reverse] at hwalk
  rw [Path.normalize_components, Path.kept_join (isAbsolute_written h.pieces),
    pieces_written h.pieces, hwalk, Path.normalize_components]

/-- From anywhere, an absolute path in normal form leads to itself. -/
theorem normalize_join_written_root {ns : List Text} (h : ∀ n ∈ ns, IsNormal n) :
    Path.normalize (dir.join (written (.root :: Path.names ns))).components
      = .root :: Path.names ns := by
  have hwritten : written (.root :: Path.names ns) = '/' :: Text.join ['/'] ns ++ ['/'] := by
    rw [written, Path.render, Path.map_text_names]
  have habsolute : Path.isAbsolute (written (.root :: Path.names ns)) = true := by
    rw [hwritten]
    rfl
  have hpieces : Path.pieces (written (.root :: Path.names ns)) = Path.names ns := by
    rw [hwritten, Path.pieces_trailing]
    exact (Path.pieces_slash [] _).trans (Path.pieces_join_names h)
  have hopening : Path.opening (written (.root :: Path.names ns)) = [.root] := by
    rw [Path.opening, habsolute, if_pos rfl]
  rw [Path.join, if_pos habsolute, Path.normalize_components, Path.kept_eq, hopening, hpieces,
    Path.foldl_names, List.reverse_append, List.reverse_reverse]
  rfl

section

variable (hdir : IsDirectoryOf dir file) (htarget : IsCandidateOf target file destination anchor)

include hdir htarget

/-- A fragment is the written way from the directory of the file to the candidate. -/
theorem relativePrefix_eq_written :
    relativePrefix file destination anchor = written (Path.relativeTo target dir) := by
  rw [relativePrefix_eq, candidate_eq_iff.2 htarget, directory_eq_iff.2 hdir]

/-- A fragment leads to the candidate. The directory of the file must not climb, and an absolute one
must have an absolute candidate; otherwise all three texts may be any. -/
theorem relativePrefix_leads_to_candidate
    (hclimb : (Path.normalize dir.components).head? ≠ some .up)
    (hreach : ¬ (dir.isAbsolute = true ∧ target.isAbsolute = false)) :
    Path.normalize (dir.join (relativePrefix file destination anchor)).components
        = Path.normalize target.components
      ∧ (relativePrefix file destination anchor).getLast? = some '/' := by
  refine ⟨?_, getLast?_relativePrefix file destination anchor⟩
  rw [relativePrefix_eq_written hdir htarget]
  cases hd : dir.isAbsolute with
  | true =>
    have ht : target.isAbsolute = true := by simpa [hd] using hreach
    exact normalize_join_written (Path.leads_of_isAbsolute hd ht)
  | false =>
    cases ht : target.isAbsolute with
    | true =>
      obtain ⟨ns, hns, hnormal⟩ := Path.exists_rooted ht
      rw [Path.relativeTo_of_isAbsolute hd ht, hnormal, normalize_join_written_root hns]
    | false =>
      refine normalize_join_written (Path.leads_of_climbs_le hd ht ?_)
      obtain ⟨m, base, -, hbase⟩ := Path.exists_climbing hd
      cases m with
      | zero => simp [hbase]
      | succ m =>
        rw [hbase] at hclimb
        exact absurd rfl hclimb

end

/-- From a directory with a slash too many to a place far above it, with the anchor in the middle of
a name. -/
theorem relativePrefix_leads_to_candidate_farAbove :
    IsDirectoryOf "pkg/solidity-lib//x" "pkg/solidity-lib//x/I.sol"
      ∧ IsCandidateOf "pkg/.././../lib" "pkg/solidity-lib//x/I.sol" ".././../lib" "solidity"
      ∧ relativePrefix "pkg/solidity-lib//x/I.sol" ".././../lib" "solidity" = "../../../../lib/"
      ∧ Path.normalize (Path.join "pkg/solidity-lib//x"
          (relativePrefix "pkg/solidity-lib//x/I.sol" ".././../lib" "solidity")).components
        = Path.normalize (Path.components "pkg/.././../lib") := by
  have hdir : IsDirectoryOf "pkg/solidity-lib//x" "pkg/solidity-lib//x/I.sol" :=
    .inl ⟨"I.sol", by decide, by decide⟩
  have htarget : IsCandidateOf "pkg/.././../lib" "pkg/solidity-lib//x/I.sol" ".././../lib"
      "solidity" :=
    .inl ⟨"pkg/", "-lib//x/I.sol", by decide,
      @Text.isFirst_of_cutAt "solidity" "pkg/solidity-lib//x/I.sol" _ _ (by decide), by decide⟩
  exact ⟨hdir, htarget, by decide +kernel,
    (relativePrefix_leads_to_candidate hdir htarget (by decide) (by decide)).1⟩

/-! ## Directories that climb -/

/-- Between relative paths a fragment leads to the candidate unless the directory climbs higher.
Then the candidate itself stands in for a way to it if it has a name; if it does nothing but climb,
the fragment climbs out of the directory once for each component that the directory has more. -/
theorem relativePrefix_of_relative (hdir : IsDirectoryOf dir file)
    (htarget : IsCandidateOf target file destination anchor)
    (hd : dir.isAbsolute = false) (ht : target.isAbsolute = false) :
    (Path.climbs (Path.normalize dir.components) ≤ Path.climbs (Path.normalize target.components) →
      Path.normalize (dir.join (relativePrefix file destination anchor)).components
        = Path.normalize target.components) ∧
    (Path.climbs (Path.normalize target.components) < Path.climbs (Path.normalize dir.components) →
      (∃ n, .name n ∈ Path.normalize target.components) →
      relativePrefix file destination anchor = written (Path.normalize target.components)) ∧
    (Path.climbs (Path.normalize target.components) < Path.climbs (Path.normalize dir.components) →
      (∀ n, .name n ∉ Path.normalize target.components) →
      relativePrefix file destination anchor = written (List.replicate
        ((Path.normalize dir.components).length
          - (Path.normalize target.components).length) .up)) := by
  rw [relativePrefix_eq_written hdir htarget]
  refine ⟨fun hle => normalize_join_written (Path.leads_of_climbs_le hd ht hle), ?_, ?_⟩
  · intro hlt hname
    rw [Path.relativeTo_of_steeper hd ht hlt hname]
  · intro hlt hnone
    rw [Path.relativeTo_of_exhausted hd ht hlt hnone]

/-- A file whose path leaves the project, with a candidate inside the project. -/
theorem relativePrefix_of_relative_outside :
    IsDirectoryOf "solidity/../.." "solidity/../../A.sol"
      ∧ IsCandidateOf "lib/./x" "solidity/../../A.sol" "lib/./x" "solidity"
      ∧ relativePrefix "solidity/../../A.sol" "lib/./x" "solidity" = "lib/x/" := by
  have hdir : IsDirectoryOf "solidity/../.." "solidity/../../A.sol" :=
    .inl ⟨"A.sol", by decide, by decide⟩
  have htarget : IsCandidateOf "lib/./x" "solidity/../../A.sol" "lib/./x" "solidity" :=
    .inl ⟨"", "/../../A.sol", by decide, Text.isFirst_nil _ _, by decide⟩
  have hprefix := (relativePrefix_of_relative hdir htarget (by decide) (by decide)).2.1 (by decide)
    ⟨"lib", by decide⟩
  exact ⟨hdir, htarget, hprefix.trans (by decide)⟩

/-- A file whose path leaves the project, with the project's own directory as the candidate. There
is no way to it, and its normal form is empty; the fragment is neither `./` nor does it lead
there. -/
theorem relativePrefix_misses_project :
    IsDirectoryOf "solidity/../.." "solidity/../../A.sol"
      ∧ IsCandidateOf "./" "solidity/../../A.sol" "./" "solidity"
      ∧ Path.isAbsolute "solidity/../.." = false ∧ Path.isAbsolute "./" = false
      ∧ Path.climbs (Path.normalize (Path.components "./"))
        < Path.climbs (Path.normalize (Path.components "solidity/../.."))
      ∧ relativePrefix "solidity/../../A.sol" "./" "solidity"
        ≠ written (Path.normalize (Path.components "./"))
      ∧ relativePrefix "solidity/../../A.sol" "./" "solidity" = "../"
      ∧ Path.normalize (Path.join "solidity/../.."
          (relativePrefix "solidity/../../A.sol" "./" "solidity")).components
        ≠ Path.normalize (Path.components "./") :=
  ⟨.inl ⟨"A.sol", by decide, by decide⟩,
    .inl ⟨"", "/../../A.sol", by decide, Text.isFirst_nil _ _, by decide⟩,
    by decide, by decide, by decide, by decide, by decide, by decide⟩

end InterfacePackage.Import
