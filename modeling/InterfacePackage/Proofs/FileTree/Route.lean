import InterfacePackage.Proofs.FileTree.Reach
import InterfacePackage.Proofs.Path.Components

/-!
# Routes of paths

The steps that a path comes to once those that stay are left out. What an operation on a path finds
lies at the end of its route. Main statements: `denotes_of_lookup` and `lookup_of_denotes` (what a
path denotes is where its route leads) and `owner_spec` (what a path names is the last name of its
route, in the directory that the rest leads to).
-/

namespace InterfacePackage

namespace Step

/-- The step that a component of a path stands for. -/
def ofComponent : Component → Step
  | .up => .up
  | .name n => .into (Utf8.encode n)
  | _ => .stay

/-- The step of a piece that stands for no component stays. -/
theorem ofPiece_of_none {piece : Text} (h : Component.ofPiece? piece = none) :
    ofPiece piece = .stay := by
  unfold Component.ofPiece? at h
  split at h
  · rfl
  · rfl
  · cases h
  · cases h

/-- The step of a piece that stands for a component is that of the component, and does not stay. -/
theorem ofPiece_of_some {piece : Text} {c : Component} (h : Component.ofPiece? piece = some c) :
    ofPiece piece = ofComponent c ∧ ofComponent c ≠ .stay := by
  unfold Component.ofPiece? at h
  split at h
  · cases h
  · cases h
  · cases h
    exact ⟨rfl, by decide⟩
  · rename_i hne hdot hdots
    cases h
    refine ⟨?_, by simp [ofComponent]⟩
    unfold ofPiece
    split <;> first | contradiction | rfl

end Step

/-- The steps of a path without those that stay. -/
def Path.route (p : Path) : List Step := p.pieces.map Step.ofComponent

namespace Path

/-- The steps of pieces without those that stay are those of their components. -/
theorem filter_map_ofPiece (ps : List Text) :
    (ps.map Step.ofPiece).filter (· ≠ .stay)
      = (ps.filterMap Component.ofPiece?).map Step.ofComponent := by
  induction ps with
  | nil => rfl
  | cons piece ps ih =>
    cases hpiece : Component.ofPiece? piece with
    | none =>
      rw [List.filterMap_cons_none hpiece, List.map_cons, Step.ofPiece_of_none hpiece,
        List.filter_cons_of_neg (by simp), ih]
    | some c =>
      obtain ⟨hstep, hstay⟩ := Step.ofPiece_of_some hpiece
      rw [List.filterMap_cons_some hpiece, List.map_cons, List.map_cons, hstep,
        List.filter_cons_of_pos (by simpa using hstay), ih]

/-- A route is the steps of the path without those that stay. -/
theorem filter_ofPath (p : Path) : (Step.ofPath p).filter (· ≠ .stay) = route p :=
  filter_map_ofPiece _

/-- The route of a path that a relative one goes on from. -/
theorem route_join {a b : Path} (hb : b.isAbsolute = false) :
    route (a.join b) = route a ++ route b := by
  rw [route, pieces_join hb, List.map_append]
  rfl

/-- The route of normal names. -/
theorem route_join_names {ns : List Text} (h : ∀ n ∈ ns, IsNormal n) :
    route (Text.join ['/'] ns) = (ns.map Utf8.encode).map .into := by
  rw [route, pieces_join_names h, names, List.map_map, List.map_map]
  rfl

theorem route_name {n : Text} (h : IsNormal n) : route n = [.into (Utf8.encode n)] :=
  @route_join_names [n] (by simpa using h)

end Path

namespace FileTree

variable {t : FileTree}

/-! ## Paths that do not climb -/

/-- A path without a `..` does not climb. -/
theorem up_notMem_route {p : Path} (h : .up ∉ p.components) : .up ∉ p.route := by
  intro hroute
  obtain ⟨component, hpieces, hstep⟩ := List.mem_map.1 hroute
  rw [Path.components_eq, List.mem_append, not_or] at h
  cases component with
  | up => exact h.2 hpieces
  | _ => cases hstep

/-- A path seen from another does not climb if neither of them does. -/
theorem up_notMem_route_join {a b : Path} (ha : .up ∉ a.route) (hb : .up ∉ b.route) :
    .up ∉ (a.join b).route := by
  cases hb' : b.isAbsolute with
  | true =>
    rw [Path.join, if_pos hb']
    exact hb
  | false =>
    rw [Path.route_join hb', List.mem_append, not_or]
    exact ⟨ha, hb⟩

/-! ## Steps that stay -/

/-- The second list is the first one without some of its steps that stay. -/
inductive Thins : List Step → List Step → Prop where
  | nil : Thins [] []
  | keep {steps thin : List Step} (s : Step) (h : Thins steps thin) :
      Thins (s :: steps) (s :: thin)
  | drop {steps thin : List Step} (h : Thins steps thin) : Thins (.stay :: steps) thin

/-- Leaving out all steps that stay. -/
theorem thins_filter (steps : List Step) : Thins steps (steps.filter (· ≠ .stay)) := by
  induction steps with
  | nil => exact .nil
  | cons s steps ih =>
    by_cases hs : s = .stay
    · subst hs
      rw [List.filter_cons_of_neg (by simp)]
      exact .drop ih
    · rw [List.filter_cons_of_pos (by simpa using hs)]
      exact .keep s ih

/-- The same steps may stand in front. -/
theorem Thins.append_left {steps thin : List Step} (front : List Step) (h : Thins steps thin) :
    Thins (front ++ steps) (front ++ thin) := by
  induction front with
  | nil => exact h
  | cons s front ih => exact .keep s ih

/-- What leads somewhere leads there without some steps that stay. -/
theorem Reaches.thin {links : Nat} {here there : Place} {steps thin : List Step}
    (h : Reaches t links here steps there) (hthin : Thins steps thin) :
    Reaches t links here thin there := by
  induction h generalizing thin with
  | here =>
    cases hthin
    exact .here
  | stay hhere _ ih =>
    cases hthin with
    | keep _ hthin => exact .stay hhere (ih hthin)
    | drop hthin => exact ih hthin
  | up hhere _ ih =>
    cases hthin with
    | keep _ hthin => exact .up hhere (ih hthin)
  | fresh hhere hn hnone =>
    cases hthin with
    | keep _ hthin =>
      cases hthin
      exact .fresh hhere hn hnone
  | into hhere hn hsome hlink _ ih =>
    cases hthin with
    | keep _ hthin => exact .into hhere hn hsome hlink (ih hthin)
  -- behind a link the target is walked with all its steps
  | jump hhere hn hlink _ ih =>
    cases hthin with
    | keep _ hthin => exact .jump hhere hn hlink (ih (hthin.append_left _))

/-- What leads to a directory leads there with further steps that stay. -/
theorem Reaches.thicken {links : Nat} {here there : Place} {steps thin : List Step}
    (h : Reaches t links here thin there) (hthin : Thins steps thin)
    (hhere : t.entryAt here = some .directory) (hthere : t.entryAt there = some .directory) :
    Reaches t links here steps there := by
  -- on the walk, and at each of its steps on those left out in front of it
  induction h generalizing steps with
  | here =>
    generalize hnil : ([] : List Step) = thin at hthin
    induction hthin with
    | nil => exact .here
    | keep => cases hnil
    | drop _ ih => exact .stay hhere (ih hnil)
  | @stay links here there rest hhere _ ih =>
    generalize hcons : Step.stay :: rest = thin at hthin
    induction hthin with
    | nil => cases hcons
    | keep s hthin =>
      cases hcons
      exact .stay hhere (ih hthin hhere hthere)
    | drop _ ihthin => exact .stay hhere (ihthin hcons)
  | @up links here there rest hhere hrest ih =>
    generalize hcons : Step.up :: rest = thin at hthin
    induction hthin with
    | nil => cases hcons
    | keep s hthin =>
      cases hcons
      refine .up hhere (ih hthin ?_ hthere)
      -- further steps that stay ask for a directory, at the end of the walk as well
      by_cases hrestNil : rest = []
      · subst hrestNil
        cases hrest
        exact hthere
      · exact hrest.directory hrestNil
    | drop _ ihthin => exact .stay hhere (ihthin hcons)
  | fresh _ _ hnone =>
    rw [hnone] at hthere
    cases hthere
  | @into links here there n rest hhere hn hsome hlink hrest ih =>
    generalize hcons : Step.into n :: rest = thin at hthin
    induction hthin with
    | nil => cases hcons
    | keep s hthin =>
      cases hcons
      refine .into hhere hn hsome hlink (ih hthin ?_ hthere)
      by_cases hrestNil : rest = []
      · subst hrestNil
        cases hrest
        exact hthere
      · exact hrest.directory hrestNil
    | drop _ ihthin => exact .stay hhere (ihthin hcons)
  | @jump links here there n target rest hhere hn hlink hrest ih =>
    generalize hcons : Step.into n :: rest = thin at hthin
    induction hthin with
    | nil => cases hcons
    | keep s hthin =>
      cases hcons
      refine .jump hhere hn hlink (ih (hthin.append_left _) ?_ hthere)
      exact hrest.directory (by simp [Step.ofPath, Text.split_ne_nil])
    | drop _ ihthin => exact .stay hhere (ihthin hcons)

/-! ## What paths denote -/

/-- The route of a path leads to a place. -/
def Denotes (t : FileTree) (p : Path) (q : Place) : Prop :=
  Reaches t linkLimit (t.startOf p) p.route q

/-- A path denotes one place only. -/
theorem Denotes.unique (h : t.IsSound) {p : Path} {q r : Place} (hq : t.Denotes p q)
    (hr : t.Denotes p r) : q = r :=
  Reaches.unique h hq hr

/-- A path is led to by all its steps only if by its route. -/
theorem denotes_of_reaches {p : Path} {q : Place}
    (h : Reaches t linkLimit (t.startOf p) (Step.ofPath p) q) : t.Denotes p q := by
  rw [Denotes, ← Path.filter_ofPath]
  exact h.thin (thins_filter _)

/-- What is found at the end of steps stands where they lead. -/
theorem reaches_of_lookupFrom (h : t.IsSound) {here there : Place} {steps : List Step} {e : Entry}
    (hfrom : t.lookupFrom here steps = .ok (there, e)) :
    Reaches t linkLimit here steps there ∧ t.entryAt there = some e := by
  unfold lookupFrom at hfrom
  cases hfollow : t.follow linkLimit here steps with
  | error fault =>
    rw [hfollow] at hfrom
    cases hfrom
  | ok found =>
    simp only [hfollow, bind, Except.bind] at hfrom
    cases hentry : t.entryAt found with
    | none =>
      rw [hentry] at hfrom
      cases hfrom
    | some e' =>
      rw [hentry] at hfrom
      cases hfrom
      exact ⟨reaches_of_follow h hfollow, hentry⟩

/-- What paths pass. -/
theorem vet_eq_ok_iff {p : Path} :
    vet p = .ok () ↔ '\x00' ∉ p ∧ (Utf8.encode p).length ≤ pathLimit ∧ p ≠ [] := by
  unfold vet
  split
  · simp [*]
  · split
    · simp [*, Nat.not_le.2 ‹_›]
    · split <;> simp [*, Nat.not_lt.1 ‹_›]

theorem ne_nil_of_vet {p : Path} (h : vet p = .ok ()) : p ≠ [] := (vet_eq_ok_iff.1 h).2.2

/-- What steps lead to is found at their end. -/
theorem lookupFrom_of_reaches (h : t.IsSound) {here there : Place} {steps : List Step} {e : Entry}
    (hreaches : Reaches t linkLimit here steps there) (hentry : t.entryAt there = some e) :
    t.lookupFrom here steps = .ok (there, e) := by
  unfold lookupFrom
  simp only [follow_of_reaches h hreaches, bind, Except.bind, hentry]

/-- A lookup passes the path and takes its steps. -/
theorem lookup_eq_ok_iff {p : Path} {q : Place} {e : Entry} :
    t.lookup p = .ok (q, e) ↔
      vet p = .ok () ∧ t.lookupFrom (t.startOf p) (Step.ofPath p) = .ok (q, e) := by
  unfold lookup
  cases vet p <;> simp [bind, Except.bind]

/-- So does finding a place. -/
theorem place_eq_ok_iff {p : Path} {q : Place} :
    t.place p = .ok q ↔
      vet p = .ok () ∧ t.follow linkLimit (t.startOf p) (Step.ofPath p) = .ok q := by
  unfold place
  cases vet p <;> simp [bind, Except.bind]

/-- A path under which something is found exists. -/
theorem exists?_of_lookup {p : Path} {found : Place × Entry} (h : t.lookup p = .ok found) :
    t.exists? p = true := by
  rw [exists?, h]
  rfl

/-- A path under which nothing is found does not. -/
theorem exists?_of_lookup_error {p : Path} {fault : Fault} (h : t.lookup p = .error fault) :
    t.exists? p = false := by
  rw [exists?, h]
  rfl

/-- Something is found under a path that exists. -/
theorem lookup_of_exists? {p : Path} (h : t.exists? p = true) : ∃ q e, t.lookup p = .ok (q, e) := by
  cases hlookup : t.lookup p with
  | ok found => exact ⟨found.1, found.2, rfl⟩
  | error fault =>
    rw [exists?_of_lookup_error hlookup] at h
    cases h

/-- What is looked up stands where the path denotes. -/
theorem denotes_of_lookup (h : t.IsSound) {p : Path} {q : Place} {e : Entry}
    (hlookup : t.lookup p = .ok (q, e)) :
    t.Denotes p q ∧ t.entryAt q = some e ∧ vet p = .ok () := by
  obtain ⟨hvet, hfrom⟩ := lookup_eq_ok_iff.1 hlookup
  obtain ⟨hreaches, hentry⟩ := reaches_of_lookupFrom h hfrom
  exact ⟨denotes_of_reaches hreaches, hentry, hvet⟩

/-- A place that is found is where the path denotes. -/
theorem denotes_of_place (h : t.IsSound) {p : Path} {q : Place} (hplace : t.place p = .ok q) :
    t.Denotes p q :=
  denotes_of_reaches (reaches_of_follow h (place_eq_ok_iff.1 hplace).2)

/-- A directory that a path denotes is found under it. -/
theorem lookup_of_denotes (h : t.IsSound) {p : Path} {q : Place} (hvet : vet p = .ok ())
    (hp : t.Denotes p q) (hq : t.entryAt q = some .directory) :
    t.lookup p = .ok (q, .directory) := by
  have hstart : t.entryAt (t.startOf p) = some .directory := by
    -- a walk of no steps starts where it ends
    by_cases hroute : p.route = []
    · rw [Denotes, hroute] at hp
      cases hp
      exact hq
    · exact hp.directory hroute
  have hsteps : Reaches t linkLimit (t.startOf p) (Step.ofPath p) q := by
    rw [Denotes, ← Path.filter_ofPath] at hp
    exact hp.thicken (thins_filter _) hstart hq
  exact lookup_eq_ok_iff.2 ⟨hvet, lookupFrom_of_reaches h hsteps hq⟩

/-! ## What paths name -/

/-- Pieces at the end that are empty have no part in a route. -/
theorem route_of_pieces {p : Path} {above empties : List Text} {last : Text} {n : Name}
    (hpieces : Text.split '/' p = above ++ last :: empties) (hempties : ∀ e ∈ empties, e = [])
    (hlast : Step.ofPiece last = .into n) :
    p.route = (above.map Step.ofPiece).filter (· ≠ .stay) ++ [.into n] := by
  have htail : (empties.map Step.ofPiece).filter (· ≠ .stay) = [] := by
    rw [List.filter_eq_nil_iff]
    intro s hs
    obtain ⟨e, he, rfl⟩ := List.mem_map.1 hs
    rw [hempties e he]
    simp [Step.ofPiece]
  rw [← Path.filter_ofPath, Step.ofPath, hpieces, List.map_append, List.map_cons,
    List.filter_append, hlast, List.filter_cons_of_pos (by simp), htail]

/-- What a path names is the last name of its route, in the directory that the rest of it leads
to. -/
theorem owner_spec (h : t.IsSound) {p : Path} {here : Place} {n : Name}
    (howner : t.owner p = .ok (here, some n)) :
    ∃ front, p.route = front ++ [.into n] ∧ Reaches t linkLimit (t.startOf p) front here
      ∧ t.entryAt here = some .directory ∧ n.length ≤ nameLimit ∧ vet p = .ok () := by
  unfold owner at howner
  cases hvet : vet p with
  | error fault =>
    rw [hvet] at howner
    cases howner
  | ok _ =>
    rw [hvet] at howner
    simp only [bind, Except.bind] at howner
    split at howner
    · cases howner
    · rename_i last above hdrop
      -- slashes at the end stand for empty pieces
      obtain ⟨empties, hpieces, hempties⟩ := Text.eq_of_dropWhile_reverse hdrop
      rw [List.reverse_cons, List.append_assoc, List.singleton_append] at hpieces
      have hempty : ∀ e ∈ empties, e = [] := fun e he => of_decide_eq_true (hempties e he)
      cases hfrom : t.lookupFrom (t.startOf p) (above.reverse.map Step.ofPiece) with
      | error fault =>
        rw [hfrom] at howner
        cases howner
      | ok found =>
        obtain ⟨there, e⟩ := found
        rw [hfrom] at howner
        cases e with
        | file content => cases howner
        | link target => cases howner
        | directory =>
          simp only at howner
          split at howner
          · rename_i m hlast
            split at howner
            · cases howner
            · rename_i hlength
              cases howner
              obtain ⟨hreaches, hentry⟩ := reaches_of_lookupFrom h hfrom
              exact ⟨_, route_of_pieces hpieces hempty hlast, hreaches.thin (thins_filter _),
                hentry, Nat.not_lt.1 hlength, rfl⟩
          · cases howner

end FileTree

end InterfacePackage
