import InterfacePackage.Proofs.Import.Meaning

/-!
# Imports of installed packages

An alias may stand for a package of its own name below the directory of installed packages. Its
fragment then climbs out of every directory that the file is in, enters the directory of packages
and goes down to the package, and the line is cut down again to the package's path. What is left
does not tell in which file the line stands. Main statements: `relativePrefix_package` (the
fragment), `collapse_relocate_installed` (the line) and `relocateLine_forgets_file`.
-/

namespace InterfacePackage

namespace Path

/-! ## Directories written with a slash at the end of each name -/

/-- Names with a slash after each. -/
def slashEnded (ns : List Text) : Path := ns.flatMap (· ++ ['/'])

@[simp] theorem slashEnded_nil : slashEnded [] = [] := rfl

@[simp] theorem slashEnded_cons (n : Text) (ns : List Text) :
    slashEnded (n :: ns) = n ++ '/' :: slashEnded ns := by
  simp [slashEnded]

@[simp] theorem slashEnded_append (ns ms : List Text) :
    slashEnded (ns ++ ms) = slashEnded ns ++ slashEnded ms :=
  List.flatMap_append

/-- Names between slashes with one more slash at the end. -/
theorem join_slash {ns : List Text} (h : ns ≠ []) :
    Text.join ['/'] ns ++ ['/'] = slashEnded ns := by
  induction ns with
  | nil => exact absurd rfl h
  | cons n ns ih =>
    rw [slashEnded_cons]
    by_cases hnil : ns = []
    · subst hnil
      rfl
    · rw [Text.join_cons hnil, List.append_assoc, List.append_assoc, ih hnil]
      rfl

/-- The pieces of names with a slash after each are these names. -/
theorem pieces_slashEnded {ns : List Text} (h : ∀ n ∈ ns, IsNormal n) :
    pieces (slashEnded ns) = names ns := by
  by_cases hnil : ns = []
  · subst hnil
    rfl
  · rw [← join_slash hnil, pieces_trailing, pieces_join_names h]

/-- Names with a slash after each are a relative path. -/
theorem isAbsolute_slashEnded {ns : List Text} (h : ∀ n ∈ ns, IsNormal n) :
    isAbsolute (slashEnded ns) = false := by
  cases ns with
  | nil => rfl
  | cons n ns =>
    have hn : IsNormal n := h n List.mem_cons_self
    rw [slashEnded_cons, isAbsolute_append hn.1, isAbsolute_of_isNormal hn]

/-- A directory that is written with a slash at its end, or not at all, is joined by writing on. -/
theorem join_of_open {a b : Path} (ha : a = [] ∨ a.getLast? = some '/')
    (hb : b.isAbsolute = false) : a.join b = a ++ b := by
  rw [join, hb, if_neg Bool.false_ne_true, if_pos ha]

end Path

namespace Import

/-! ## Files below the place of the anchor -/

/-- A file whose path goes on with the names `steps` from where the anchor first occurs. Behind the
directory `above` they say where the file is, and there is at least one directory among them. -/
structure IsRooted (anchor : Text) (file above : Path) (steps : List Text) : Prop where
  eq : file = above ++ Text.join ['/'] steps
  ends : above = [] ∨ above.getLast? = some '/'
  anchored : ∃ rest, file = above ++ anchor ++ rest ∧ Text.IsFirst anchor above rest
  normal : ∀ n ∈ steps, IsNormal n
  inner : 2 ≤ steps.length

/-- A rule for a package: its alias is the package's path in the directory `modules`. -/
structure Remapping.IsPackage (modules : List Text) (r : Remapping) : Prop where
  origin : ∃ ns, (∀ n ∈ ns, IsNormal n) ∧ r.origin = Path.slashEnded ns
  destination : r.destination = Path.slashEnded modules ++ r.origin

/-- A way is written with a slash after each step. -/
theorem written_eq {way : List Component} (hne : way ≠ []) (h : ∀ c ∈ way, Path.IsPiece c) :
    written way = Path.slashEnded (way.map Component.text) := by
  have hmap : way.map Component.text ≠ [] := fun hnil => hne (List.map_eq_nil_iff.1 hnil)
  have hrender : Path.render way ++ ['/'] = Path.slashEnded (way.map Component.text) := by
    rw [Path.render_of_isPiece h, Path.join_slash hmap]
  rw [← hrender, written]
  split
  · rename_i hnil
    exact absurd (Path.eq_nil_of_render_eq_nil h hnil) hne
  · rfl

/-- A rooted file is in some directory below the place of the anchor. -/
theorem IsRooted.dropLast_ne_nil {anchor : Text} {file above : Path} {steps : List Text}
    (h : IsRooted anchor file above steps) : steps.dropLast ≠ [] := by
  have hlength : steps.dropLast.length = steps.length - 1 := List.length_dropLast
  have hinner := h.inner
  intro hnil
  rw [hnil, List.length_nil] at hlength
  omega

/-- The directory of a rooted file. -/
theorem IsRooted.directory_eq {anchor : Text} {file above : Path} {steps : List Text}
    (h : IsRooted anchor file above steps) :
    directory file = above ++ Text.join ['/'] steps.dropLast := by
  have hdirs := h.dropLast_ne_nil
  have hne : steps ≠ [] := by
    rintro rfl
    exact hdirs rfl
  have hlast : '/' ∉ steps.getLast hne := (h.normal _ (List.getLast_mem hne)).2.2.2
  have hsplit : file = (above ++ Text.join ['/'] steps.dropLast) ++ '/' :: steps.getLast hne :=
    calc file = above ++ Text.join ['/'] (steps.dropLast ++ [steps.getLast hne]) := by
          rw [List.dropLast_concat_getLast, h.eq]
      _ = _ := by
          rw [Text.join_append_singleton hdirs]
          simp
  rw [directory, hsplit, Text.beforeLast_append hlast]
  rfl

/-- In a rooted file the fragment for names below the place of the anchor is the way to them from
the directories that the file is in. -/
theorem IsRooted.relativePrefix_eq {anchor : Text} {file above : Path} {steps target : List Text}
    (h : IsRooted anchor file above steps) (htarget : ∀ n ∈ target, IsNormal n) :
    relativePrefix file (Path.slashEnded target) anchor
      = written (Path.way steps.dropLast target) := by
  have hinner : ∀ n ∈ steps.dropLast, IsNormal n :=
    fun n hn => h.normal n (List.dropLast_subset _ hn)
  obtain ⟨rest, hfile, hfirst⟩ := h.anchored
  -- both paths go on from `above`, and what is kept of that drops out
  have hcandidate : (candidate file (Path.slashEnded target) anchor).kept
      = (Path.names target).reverse ++ above.kept := by
    rw [hfile, candidate_eq hfirst, ← Path.join_of_open h.ends (Path.isAbsolute_slashEnded htarget),
      Path.kept_join (Path.isAbsolute_slashEnded htarget), Path.pieces_slashEnded htarget,
      Path.foldl_names]
  have hdirectory : (directory file).kept
      = (Path.names steps.dropLast).reverse ++ above.kept := by
    rw [h.directory_eq, ← Path.join_of_open h.ends (Path.isAbsolute_join_names hinner),
      Path.kept_join (Path.isAbsolute_join_names hinner), Path.pieces_join_names hinner,
      Path.foldl_names]
  rw [Import.relativePrefix_eq, Path.relativeTo, Path.normalize_components,
    Path.normalize_components, hcandidate, hdirectory, List.reverse_append, List.reverse_append,
    List.reverse_reverse, List.reverse_reverse, Path.difference_names]
  rfl

/-! ## Fragments of packages -/

/-- The start of a fragment that climbs out of as many directories as there are names. -/
def climb (ns : List Text) : Text := ns.flatMap fun _ => "../"

/-- A climb is made of dots and slashes. -/
theorem mem_climb {ns : List Text} {c : Char} (h : c ∈ climb ns) : c = '.' ∨ c = '/' := by
  obtain ⟨-, -, hc⟩ := List.mem_flatMap.1 h
  have hchars : c ∈ ['.', '.', '/'] := hc
  simpa using hchars

/-- Out of at least one directory, a climb starts with a dot. -/
theorem climb_of_ne_nil {ns : List Text} (h : ns ≠ []) : ∃ more, climb ns = '.' :: more := by
  cases ns with
  | nil => exact absurd rfl h
  | cons n ns => exact ⟨'.' :: '/' :: climb ns, rfl⟩

/-- In a file outside of the directory of packages, the fragment for a package climbs out of the
file's directories and goes down to the package. -/
theorem relativePrefix_package {anchor : Text} {file above : Path} {steps modules ns : List Text}
    (h : IsRooted anchor file above steps) (hmodules : ∀ n ∈ modules, IsNormal n)
    (hne : modules ≠ []) (houtside : steps.head? ≠ modules.head?) (hns : ∀ n ∈ ns, IsNormal n) :
    relativePrefix file (Path.slashEnded modules ++ Path.slashEnded ns) anchor
      = climb steps.dropLast ++ (Path.slashEnded modules ++ Path.slashEnded ns) := by
  have htarget : ∀ n ∈ modules ++ ns, IsNormal n :=
    fun n hn => (List.mem_append.1 hn).elim (hmodules n) (hns n)
  -- the two runs of names part at once
  have hway : Path.way steps.dropLast (modules ++ ns)
      = (steps.dropLast.map fun _ => Component.up) ++ Path.names (modules ++ ns) := by
    have hinner := h.inner
    match hsteps : steps, hmods : modules with
    | [], _ => simp at hinner
    | [_], _ => simp at hinner
    | _, [] => exact absurd rfl hne
    | s :: t :: steps, m :: modules =>
      have hsm : s ≠ m := by simpa using houtside
      rw [List.dropLast_cons_cons, List.cons_append, Path.way, if_neg hsm]
  have hpieces : ∀ c ∈ Path.way steps.dropLast (modules ++ ns), Path.IsPiece c :=
    Path.isPiece_of_mem_way htarget
  have hsome : Path.way steps.dropLast (modules ++ ns) ≠ [] := by
    rw [hway]
    simp [Path.names, hne]
  have hclimb : Path.slashEnded ((steps.dropLast.map fun _ => Component.up).map Component.text)
      = climb steps.dropLast := by
    rw [Path.slashEnded, List.map_map, List.flatMap_map]
    rfl
  calc relativePrefix file (Path.slashEnded modules ++ Path.slashEnded ns) anchor
      = relativePrefix file (Path.slashEnded (modules ++ ns)) anchor := by
        rw [Path.slashEnded_append]
    _ = Path.slashEnded ((Path.way steps.dropLast (modules ++ ns)).map Component.text) := by
        rw [h.relativePrefix_eq htarget, written_eq hsome hpieces]
    _ = climb steps.dropLast ++ (Path.slashEnded modules ++ Path.slashEnded ns) := by
        rw [hway, List.map_append, Path.map_text_names, Path.slashEnded_append, hclimb,
          Path.slashEnded_append]

/-! ## Lines of packages -/

/-- A line is cut at its first dot. -/
theorem cutAt_dot (before after : Text) : ∃ rest,
    Text.cutAt ['.'] (before ++ '.' :: after) = some (before.takeWhile (· ≠ '.'), rest) := by
  induction before with
  | nil => exact ⟨after, by simp [Text.cutAt]⟩
  | cons c before ih =>
    by_cases hc : c = '.'
    · subst hc
      exact ⟨before ++ '.' :: after, by simp [Text.cutAt]⟩
    · obtain ⟨rest, hcut⟩ := ih
      have hprefix : ¬ ['.'].isPrefixOf (c :: (before ++ '.' :: after)) = true := by
        simp [List.isPrefixOf, Ne.symm hc]
      refine ⟨rest, ?_⟩
      rw [List.cons_append, Text.cutAt, if_neg hprefix, hcut]
      simp [hc]

/-- The start of a line with a dot behind it, up to its own first dot if it has one. -/
theorem uptoDot_append (before after : Text) :
    uptoDot (before ++ '.' :: after) = before.takeWhile (· ≠ '.') ++ ['.'] := by
  obtain ⟨rest, hcut⟩ := cutAt_dot before after
  rw [uptoDot, hcut]

/-- A marker of names without dots has no dots. -/
theorem dot_notMem_marker {modules : List Text} (hmodules : ∀ n ∈ modules, IsNormal n ∧ '.' ∉ n) :
    '.' ∉ Path.slashEnded modules := by
  intro hdot
  obtain ⟨n, hn, hmem⟩ := List.mem_flatMap.1 hdot
  have hnot := (hmodules n hn).2
  simp [hnot] at hmem

/-- Where the marker of the directory of packages does not occur before a climb, it first occurs
behind it. -/
theorem isFirst_marker {modules ns : List Text} {before after : Text}
    (hmodules : ∀ n ∈ modules, IsNormal n ∧ '.' ∉ n) (hne : modules ≠ []) (hns : ns ≠ [])
    (hbefore : ¬ Path.slashEnded modules <:+: before) :
    Text.IsFirst (Path.slashEnded modules) (before ++ climb ns) after := by
  have hdot := dot_notMem_marker hmodules
  -- the marker opens with a character of a name
  obtain ⟨c, rest, hmarker, hslash⟩ : ∃ c rest, Path.slashEnded modules = c :: rest ∧ c ≠ '/' := by
    cases modules with
    | nil => exact absurd rfl hne
    | cons n modules =>
      have hn := (hmodules n List.mem_cons_self).1
      cases n with
      | nil => exact absurd rfl hn.1
      | cons c n =>
        refine ⟨c, n ++ '/' :: Path.slashEnded modules, by simp, ?_⟩
        intro hc
        exact hn.2.2.2 (hc ▸ List.mem_cons_self)
  obtain ⟨more, hclimb⟩ := climb_of_ne_nil hns
  intro b a heq
  refine Nat.le_of_not_lt fun hshort => ?_
  have heq' : before ++ '.' :: (more ++ Path.slashEnded modules ++ after)
      = b ++ Path.slashEnded modules ++ a := by
    rw [← heq, hclimb]
    simp
  rcases Text.occurs_apart hdot heq' with ⟨a', hin⟩ | ⟨b', hb, hin⟩
  · exact hbefore ⟨b, a', hin.symm⟩
  · -- an occurrence in the climb would start with a dot or a slash
    have hlt : b'.length < more.length := by
      rw [hclimb, hb] at hshort
      simp only [List.length_append, List.length_cons] at hshort
      omega
    have hchar : more[b'.length]? = some c := by
      have hget := congrArg (·[b'.length]?) hin
      simp only [hmarker] at hget
      rw [List.append_assoc, List.append_assoc, List.getElem?_append_left hlt,
        List.getElem?_append_right (Nat.le_refl _)] at hget
      simpa using hget
    have hmem : c ∈ climb ns := hclimb ▸ List.mem_cons_of_mem _ (List.mem_of_getElem? hchar)
    rcases mem_climb hmem with hc | hc
    · exact hdot (hmarker ▸ hc ▸ List.mem_cons_self)
    · exact hslash hc

/-- The start of a line up to its first dot, a dot, and a rest. -/
def dotted (before rest : Text) : Text := before.takeWhile (· ≠ '.') ++ '.' :: rest

/-- A rest that has a pattern in it, with the dot counted to what stands before. -/
theorem dotted_append (before pattern after : Text) : dotted before (pattern ++ after)
    = (before.takeWhile (· ≠ '.') ++ ['.']) ++ pattern ++ after := by
  simp [dotted]

/-- What is cut off at its dot already loses nothing more. -/
theorem dotted_dotted (before rest : Text) :
    dotted (before.takeWhile (· ≠ '.') ++ ['.']) rest = dotted before rest := by
  have htake : (before.takeWhile (· ≠ '.') ++ ['.']).takeWhile (· ≠ '.')
      = before.takeWhile (· ≠ '.') := by
    rw [List.takeWhile_append_of_pos fun x hx => List.all_eq_true.1 List.all_takeWhile x hx]
    simp
  rw [dotted, htake, dotted]

/-- A text without a dot that occurs in the shortened line occurs in the whole one. -/
theorem infix_of_infix_dotted {t before pattern after : Text} (hdot : '.' ∉ t)
    (h : t <:+: dotted before (pattern ++ after)) : t <:+: before ++ pattern ++ after := by
  rcases Text.infix_apart hdot h with h | h
  · have hstart : t <:+: before := h.trans (List.takeWhile_prefix _).isInfix
    exact hstart.trans ⟨[], pattern ++ after, by simp⟩
  · exact h.trans ⟨before, [], by simp⟩

section

variable {anchor before after : Text} {file above : Path} {steps modules : List Text}
  (h : IsRooted anchor file above steps) (hmodules : ∀ n ∈ modules, IsNormal n ∧ '.' ∉ n)
  (hne : modules ≠ []) (houtside : steps.head? ≠ modules.head?)

include h hmodules hne houtside

/-- A relocated import of a package keeps the start of its line up to the first dot, one dot, the
package's path, and all behind the alias. -/
theorem collapse_relocate_installed {origin : Text} {ns : List Text} (hns : ∀ n ∈ ns, IsNormal n)
    (hfirst : Text.IsFirst origin before after)
    (hbefore : ¬ Path.slashEnded modules <:+: before) :
    collapse (relocate (before ++ origin ++ after) file
        ⟨origin, Path.slashEnded modules ++ Path.slashEnded ns⟩ anchor) (Path.slashEnded modules)
      = dotted before (Path.slashEnded ns ++ after) := by
  have hdirs := h.dropLast_ne_nil
  have hrelocate : relocate (before ++ origin ++ after) file
      ⟨origin, Path.slashEnded modules ++ Path.slashEnded ns⟩ anchor
      = (before ++ climb steps.dropLast) ++ Path.slashEnded modules
        ++ (Path.slashEnded ns ++ after) := by
    rw [relocate, replaceFirst_of_isFirst hfirst,
      relativePrefix_package h (fun n hn => (hmodules n hn).1) hne houtside hns]
    simp
  obtain ⟨more, hclimb⟩ := climb_of_ne_nil hdirs
  rw [hrelocate, collapse,
    Text.cutAt_eq_some_iff.2 ⟨rfl, isFirst_marker hmodules hne hdirs hbefore⟩]
  dsimp only
  rw [hclimb, List.append_assoc, List.append_assoc, List.cons_append, uptoDot_append]
  simp [dotted]

/-- Where the alias is the package's own path, all from the alias on is kept. -/
theorem collapse_relocate_package {r : Remapping} (hr : r.IsPackage modules)
    (hfirst : Text.IsFirst r.origin before after)
    (hbefore : ¬ Path.slashEnded modules <:+: before) :
    collapse (relocate (before ++ r.origin ++ after) file r anchor) (Path.slashEnded modules)
      = dotted before (r.origin ++ after) := by
  obtain ⟨ns, hns, horigin⟩ := hr.origin
  have hrule : r = ⟨r.origin, Path.slashEnded modules ++ Path.slashEnded ns⟩ := by
    rw [← horigin, ← hr.destination]
  rw [hrule, collapse_relocate_installed h hmodules hne houtside hns hfirst hbefore, ← horigin]

end

/-- An import of an installed package does not tell in which file it stands. Wherever the file is,
the line keeps its start up to the first dot, or all of its start if that has no dot, then a dot,
the package's path and all behind the alias. -/
theorem relocateLine_forgets_file {layout : Layout} {table : Table} {file above : Path}
    {steps modules ns : List Text} {before origin after : Text}
    (hmodules : ∀ n ∈ modules, IsNormal n ∧ '.' ∉ n) (hne : modules ≠ [])
    (hmarker : layout.modulesMarker = Path.slashEnded modules) (hns : ∀ n ∈ ns, IsNormal n)
    (hfile : IsRooted layout.anchor file above steps) (houtside : steps.head? ≠ modules.head?)
    (hstatement : isStatement (before ++ origin ++ after) = true)
    (hresolve : table.resolve (before ++ origin ++ after)
      = some ⟨origin, Path.slashEnded modules ++ Path.slashEnded ns⟩)
    (hfirst : Text.IsFirst origin before after)
    (hbefore : ¬ Path.slashEnded modules <:+: before) :
    relocateLine (before ++ origin ++ after) file table layout
      = (before.takeWhile (· ≠ '.') ++ ['.']) ++ Path.slashEnded ns ++ after := by
  have hcollapse := collapse_relocate_installed hfile hmodules hne houtside hns hfirst hbefore
  rw [relocateLine, if_pos hstatement, hresolve, hmarker]
  dsimp only
  rw [hcollapse, dotted]
  simp

/-- An alias that is not the package's path, in a line with a dot before it and in a file far
down. -/
theorem relocateLine_forgets_file_aliased :
    relocateLine (("import {Errors.Code} from '" : Text) ++ "@oz/" ++ "Errors.sol';")
        "/root/./solidity/interfaces/deep/IB.sol"
        [⟨"@oz/", Path.slashEnded ["node_modules"] ++ Path.slashEnded ["@openzeppelin", "v4.9"]⟩] {}
      = "import \x7bErrors.@openzeppelin/v4.9/Errors.sol';" := by
  have hfile : IsRooted "solidity" "/root/./solidity/interfaces/deep/IB.sol" "/root/./"
      ["solidity", "interfaces", "deep", "IB.sol"] :=
    ⟨by decide, by decide, ⟨"/interfaces/deep/IB.sol", by decide,
      @Text.isFirst_of_cutAt "solidity" "/root/./solidity/interfaces/deep/IB.sol" _ _ (by decide)⟩,
      by decide, by decide⟩
  have hfirst : Text.IsFirst "@oz/" "import {Errors.Code} from '" "Errors.sol';" :=
    @Text.isFirst_of_cutAt "@oz/" "import {Errors.Code} from '@oz/Errors.sol';" _ _ (by decide)
  have hbefore : ¬ Path.slashEnded ["node_modules"] <:+: ("import {Errors.Code} from '" : Text) :=
    Text.contains_eq_false_iff.1 (by decide)
  have hline := @relocateLine_forgets_file {}
    [⟨"@oz/", Path.slashEnded ["node_modules"] ++ Path.slashEnded ["@openzeppelin", "v4.9"]⟩]
    "/root/./solidity/interfaces/deep/IB.sol" "/root/./"
    ["solidity", "interfaces", "deep", "IB.sol"] ["node_modules"] ["@openzeppelin", "v4.9"]
    "import {Errors.Code} from '" "@oz/" "Errors.sol';"
    (by decide) (by decide) (by decide) (by decide) hfile (by decide) (by decide +kernel)
    (by decide +kernel) hfirst hbefore
  exact hline.trans (by decide +kernel)

end Import

end InterfacePackage
