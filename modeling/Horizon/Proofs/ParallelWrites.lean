import Horizon.Proofs.ParallelStaging

/-!
What is written in two trees at once. A directory that is there already is not made again in
either. A file of the query's own is emptied or made in both at one place, and it does not set the
trees apart any more; once that has been done for all of them, every path reads the same.
-/

namespace Horizon
namespace FileTree

open FileOp Staging Horizon.Path

variable {t u u₁ u₂ v₁ v₂ : FileTree} {aim : Aim} {i j k : Nat} {dir d d' l : Location}
  {n name : Text} {xs ys : List Text} {root p : Path} {own own' : List Text} {copied : Prop}
  {content : Bytes} {executable : Bool}

/-! A directory that is there. -/

/-- A way to a directory gives the same in a tree that has all directories and links. -/
theorem Leads.walk_agree (w : t.Outlined u) (h : t.Leads i dir xs d) (ha : aim ≠ .file) (k : Nat) :
    (walk t aim k dir xs = .error .tooManyLinks ∧ walk u aim k dir xs = .error .tooManyLinks) ∨
    ∃ l, walk t aim k dir xs = .ok (.found l) ∧ walk u aim k dir xs = .ok (.found l) ∧
      (aim = .target → l = d) := by
  have hallows : ∀ rest, aim.Allows rest := fun _ hfile => absurd hfile ha
  induction h generalizing k with
  | here => exact .inr ⟨_, by simp only [walk_eq, walkNames], by simp only [walk_eq, walkNames],
      fun _ => rfl⟩
  | idle hidle _ ih =>
      rw [walk_idle hidle, walk_idle hidle]
      exact ih k
  | up _ ih =>
      rw [walk_up, walk_up]
      exact ih k
  | down hs he _ ih =>
      rw [walk_directory hs (hallows _) he, walk_directory hs (hallows _) (w.keeps_directory he)]
      exact ih k
  | @follow i dir d n rest target hs he _ ih =>
      by_cases hlast : aim = .entry ∧ rest = []
      · obtain ⟨rfl, rfl⟩ := hlast
        have hfound : ∀ v : FileTree, v.at? (n :: dir) = some (.link target) →
            walk v .entry k dir [n] = .ok (.found (n :: dir)) :=
          fun v hv => (Resolves.entry hs hv (by simp) fun _ _ => rfl).walk
        refine .inr ⟨_, hfound t he, hfound u (w.keeps_link he), fun htarget => ?_⟩
        contradiction
      · have hlast' : aim = .entry → rest ≠ [] := fun hentry hnil => hlast ⟨hentry, hnil⟩
        rw [walk_link hs (hallows _) hlast' he, walk_link hs (hallows _) hlast' (w.keeps_link he)]
        cases k with
        | zero => exact .inl ⟨rfl, rfl⟩
        | succ k => exact ih k

theorem leads_of_empty (h : ∀ n ∈ xs, n = []) : t.Leads 0 d xs d := by
  induction xs with
  | nil => exact .here
  | cons n xs ih =>
      rw [List.forall_mem_cons] at h
      exact .idle (.inl h.1) (ih h.2)

theorem Leads.of_append_empty (h : t.Leads k dir (xs ++ ys) d) (hys : ∀ n ∈ ys, n = []) :
    t.Leads k dir xs d := by
  generalize hzs : xs ++ ys = zs at h
  induction h generalizing xs ys with
  | here =>
      obtain ⟨rfl, -⟩ := List.append_eq_nil_iff.mp hzs
      exact .here
  | idle hidle _ ih =>
      obtain ⟨rfl, rfl⟩ | ⟨xs, rfl, rfl⟩ := List.append_eq_cons_iff.mp hzs
      · exact ih (List.forall_mem_cons.mp hys).2 rfl
      · exact .idle hidle (ih hys rfl)
  | up _ ih =>
      obtain ⟨rfl, rfl⟩ | ⟨xs, rfl, rfl⟩ := List.append_eq_cons_iff.mp hzs
      · simp at hys
      · exact .up (ih hys rfl)
  | down hs he _ ih =>
      obtain ⟨rfl, rfl⟩ | ⟨xs, rfl, rfl⟩ := List.append_eq_cons_iff.mp hzs
      · exact absurd (List.forall_mem_cons.mp hys).1 hs.ne_nil
      · exact .down hs he (ih hys rfl)
  | follow hs he _ ih =>
      obtain ⟨rfl, rfl⟩ | ⟨xs, rfl, rfl⟩ := List.append_eq_cons_iff.mp hzs
      · exact absurd (List.forall_mem_cons.mp hys).1 hs.ne_nil
      · exact .follow hs he (ih hys (List.append_assoc ..))

theorem names_eq_dirNames_append (hroot : root ≠ []) :
    ∃ ys, (∀ n ∈ ys, n = []) ∧ names root = dirNames root ++ ys := by
  obtain rfl | ⟨r, c, rfl⟩ := List.eq_nil_or_concat root
  · contradiction
  by_cases hc : c = '/'
  · subst hc
    refine ⟨[[]], by simp, ?_⟩
    have hsplit : names (r ++ ['/']) = names r ++ [[]] := by
      rw [names_append_slash, names_eq_singleton List.not_mem_nil]
    simpa [dirNames] using hsplit
  · exact ⟨[], by simp, by simp [dirNames]⟩

theorem eq_withoutSlashes_append (xs : List Text) :
    ∃ ys, (∀ n ∈ ys, n = []) ∧ xs = withoutSlashes xs ++ ys := by
  refine ⟨(xs.reverse.takeWhile List.isEmpty).reverse, fun n hn => ?_, ?_⟩
  · have hall := List.all_takeWhile (p := List.isEmpty) (l := xs.reverse)
    exact List.isEmpty_iff.mp (List.all_eq_true.mp hall n (List.mem_reverse.mp hn))
  · rw [withoutSlashes, ← List.reverse_append, List.takeWhile_append_dropWhile,
      List.reverse_reverse]

/-- The names of a directory's path, with the slashes at its end or without. -/
theorem LeadsTo.leads_names (h : t.LeadsTo k root d) (hroot : root ≠ []) :
    t.Leads k (t.start root) (names root) d ∧
      t.Leads k (t.start root) (withoutSlashes (names root)) d := by
  obtain ⟨ys, hys, hnames⟩ := names_eq_dirNames_append hroot
  have hall : t.Leads k (t.start root) (names root) d := by
    rw [hnames]
    exact Leads.trans h (leads_of_empty hys)
  obtain ⟨zs, hzs, hslashes⟩ := eq_withoutSlashes_append (names root)
  rw [hslashes] at hall
  exact ⟨hslashes ▸ hall, hall.of_append_empty hzs⟩

theorem checkedNames_ne_notFound (hp : p ≠ []) : checkedNames p ≠ .error .notFound := by
  unfold checkedNames pathNames
  grind

theorem makeDirectory_agree (w : t.Outlined u) (h : t.LeadsTo k root d) (hroot : root ≠ []) :
    ∃ e, e ≠ .notFound ∧ makeDirectory root t = (.error e, t) ∧
      makeDirectory root u = (.error e, u) := by
  unfold makeDirectory change
  dsimp only
  rw [w.start_eq]
  cases hchecked : checkedNames root with
  | error e =>
      refine ⟨e, ?_, rfl, rfl⟩
      rintro rfl
      exact checkedNames_ne_notFound hroot hchecked
  | ok xs =>
      obtain rfl := checkedNames_eq_ok hchecked
      have haim : Aim.entry ≠ .file := nofun
      rcases (h.leads_names hroot).2.walk_agree w haim linkLimit with ⟨h₁, h₂⟩ | ⟨l, h₁, h₂, -⟩
      · exact ⟨.tooManyLinks, nofun, by simp [h₁], by simp [h₂]⟩
      · exact ⟨.alreadyExists, nofun, by simp [h₁], by simp [h₂]⟩

theorem isDirectoryAt_agree (w : t.Outlined u) (h : t.LeadsTo k root d) (hd : u.at? d = t.at? d)
    (hroot : root ≠ []) : u.isDirectoryAt root = t.isDirectoryAt root := by
  unfold isDirectoryAt status existing locate
  rw [w.start_eq]
  cases hchecked : checkedNames root with
  | error e => rfl
  | ok xs =>
      obtain rfl := checkedNames_eq_ok hchecked
      have haim : Aim.target ≠ .file := nofun
      rcases (h.leads_names hroot).1.walk_agree w haim linkLimit with ⟨h₁, h₂⟩ | ⟨l, h₁, h₂, hl⟩
      · simp [h₁, h₂]
      · obtain rfl := hl rfl
        simp [h₁, h₂, hd]

/-- Parents are made only if they are missing. -/
theorem makeDirectories_of_error {e : FileError} (hroot : root ≠ []) (he : e ≠ .notFound)
    (h : makeDirectory root t = (.error e, t)) :
    makeDirectories root t = (if t.isDirectoryAt root then .ok () else .error e, t) := by
  have hempty : root.isEmpty = false := by simpa using hroot
  unfold makeDirectories
  cases ancestors root with
  | nil =>
      unfold makeDirectoriesBelow
      simp only [hempty, Bool.false_eq_true, if_false]
      rw [makeDirectoryUnlessThere, tryCatch_apply, h]
      exact unlessDirectory_apply root e t
  | cons q parents =>
      unfold makeDirectoriesBelow
      simp only [hempty, Bool.false_eq_true, if_false]
      rw [tryCatch_apply, h]
      dsimp only
      rw [if_neg he]
      exact unlessDirectory_apply root e t

/-- A path that leads to a directory makes none. -/
theorem makeDirectories_agree (w : t.Outlined u) (h : t.LeadsTo k root d)
    (hd : u.at? d = t.at? d) :
    ∃ r, makeDirectories root t = (r, t) ∧ makeDirectories root u = (r, u) := by
  by_cases hroot : root = []
  · subst hroot
    exact ⟨.ok (), rfl, rfl⟩
  obtain ⟨e, he, ht, hu⟩ := makeDirectory_agree w h hroot
  have hsame := isDirectoryAt_agree w h hd hroot
  exact ⟨_, makeDirectories_of_error hroot he ht, hsame ▸ makeDirectories_of_error hroot he hu⟩

/-! A file of the query's own. -/

theorem exists_writes (h : openForWriting p executable t = (.ok l, u)) (hl : Plain (t.at? l)) :
    ∃ v, openForWriting p executable t = (.ok l, v) ∧ Writes t p l [] v := by
  rcases openForWriting_ok_cases h with ⟨hdevice, -⟩ | hw
  · exact absurd hl hdevice.not_plain
  · exact ⟨u, h, hw⟩

theorem exists_writes_of_found (h : t.locate .file p = .ok (.found l)) (hf : IsFile (t.at? l))
    (executable : Bool) :
    ∃ u, openForWriting p executable t = (.ok l, u) ∧ Writes t p l [] u := by
  obtain ⟨content, mode, he⟩ := hf
  exact exists_writes (openForWriting_of_file h he) (he ▸ plain_file content mode)

theorem exists_writes_of_plain (h : t.locate .file p = walk t .file j d [n]) (hs : Storable n)
    (hplain : Plain (t.at? (n :: d))) (executable : Bool) :
    ∃ u, openForWriting p executable t = (.ok (n :: d), u) ∧ Writes t p (n :: d) [] u := by
  cases he : t.at? (n :: d) with
  | none =>
      rw [walk_none hs Aim.allows_nil he] at h
      exact exists_writes (openForWriting_of_absent h) hplain
  | some e =>
      obtain ⟨content, mode, rfl⟩ := hplain e he
      have hf : IsFile (t.at? (n :: d)) := ⟨content, mode, he⟩
      rw [walk_file hs Aim.allows_nil hf] at h
      exact exists_writes_of_found h hf executable

/-- Where a file of the query's own is: in the directory, or where a link in both trees leads. -/
def OwnPlace (t : FileTree) (d : Location) (n : Text) (u₁ u₂ : FileTree) (l : Location) : Prop :=
  l = n :: d ∨ Outside d l ∧ IsFile (t.at? l) ∧ u₂.at? (n :: d) = u₁.at? (n :: d)

theorem Paired.own_entry (h : Paired t d own copied u₁ u₂) (hown : n ∈ own) :
    Plain (u₁.at? (n :: d)) ∧ Plain (u₂.at? (n :: d)) ∨
      ∃ m d', Anchored t d m d' ∧ u₁.at? (n :: d) = some (.link (pathOf (m :: d'))) ∧
        u₂.at? (n :: d) = some (.link (pathOf (m :: d'))) := by
  have cases₁ : Plain (u₁.at? (n :: d)) ∨
      ∃ m d', Anchored t d m d' ∧ u₁.at? (n :: d) = some (.link (pathOf (m :: d'))) := by
    rcases h.refilled.inside n with he | ⟨-, hr⟩
    · exact .inl (he ▸ h.plain n hown)
    · generalize u₁.at? (n :: d) = o at hr
      cases hr with
      | none => exact .inl plain_none
      | link hanchored => exact .inr ⟨_, _, hanchored, rfl⟩
      | file _ hf => exact .inl hf.plain
  rcases cases₁ with h₁ | ⟨m, d', hanchored, h₁⟩
  · rcases h.alike.inside n with hm | ⟨-, -, h₂⟩
    · exact .inl ⟨h₁, hm.plain h₁⟩
    · exact .inl ⟨h₁, h₂⟩
  · refine .inr ⟨m, d', hanchored, h₁, ?_⟩
    rcases h.alike.inside n with hm | ⟨-, hplain, -⟩
    · exact (hm.eq_of_ne_file (h₁ ▸ not_isFile nofun)).trans h₁
    · rw [h₁] at hplain
      exact absurd hplain (not_plain nofun)

/-- A file of the query's own is opened in both trees at one place, or in neither. -/
theorem Paired.openForWriting (h : Paired t d own copied u₁ u₂) (hroot : t.LeadsTo k root d)
    (hn : IsName n) (hown : n ∈ own) (executable : Bool) :
    (∃ e, openForWriting (join root n) executable u₁ = (.error e, u₁) ∧
      openForWriting (join root n) executable u₂ = (.error e, u₂)) ∨
    ∃ l v₁ v₂, openForWriting (join root n) executable u₁ = (.ok l, v₁) ∧
      openForWriting (join root n) executable u₂ = (.ok l, v₂) ∧
      Writes u₁ (join root n) l [] v₁ ∧ Writes u₂ (join root n) l [] v₂ ∧
      OwnPlace t d n u₁ u₂ l := by
  rcases h.locate_join hroot hn with ⟨e, he⟩ | ⟨hs, j, hj⟩
  · exact .inl ⟨e, openForWriting_of_error (he .file).1, openForWriting_of_error (he .file).2⟩
  obtain ⟨hl₁, hl₂⟩ := hj .file
  rcases h.own_entry hown with ⟨hp₁, hp₂⟩ | ⟨m, d', hanchored, he₁, he₂⟩
  · obtain ⟨v₁, ho₁, hw₁⟩ := exists_writes_of_plain hl₁ hs hp₁ executable
    obtain ⟨v₂, ho₂, hw₂⟩ := exists_writes_of_plain hl₂ hs hp₂ executable
    exact .inr ⟨_, v₁, v₂, ho₁, ho₂, hw₁, hw₂, .inl rfl⟩
  · obtain ⟨hd₁, hd₂⟩ := h.opens hanchored.opens
    obtain ⟨hf₁, hf₂⟩ := (h.endsAt hanchored.isFile hanchored.outside).isFile_both
    have ha : Aim.file.Allows [] := Aim.allows_nil
    rw [walk_link_pathOf hs ha nofun he₁ hanchored.storable hd₁ hf₁] at hl₁
    rw [walk_link_pathOf hs ha nofun he₂ hanchored.storable hd₂ hf₂] at hl₂
    cases j with
    | zero => exact .inl ⟨_, openForWriting_of_error hl₁, openForWriting_of_error hl₂⟩
    | succ j =>
        obtain ⟨v₁, ho₁, hw₁⟩ := exists_writes_of_found hl₁ hf₁ executable
        obtain ⟨v₂, ho₂, hw₂⟩ := exists_writes_of_found hl₂ hf₂ executable
        exact .inr ⟨_, v₁, v₂, ho₁, ho₂, hw₁, hw₂,
          .inr ⟨hanchored.outside, hanchored.isFile, he₂.trans he₁.symm⟩⟩

/-- Once something has been written to it in both trees, the file does not set them apart. -/
theorem Paired.writes (h : Paired t d own True u₁ u₂) (hown : n ∈ own) (hsub : own' ⊆ own)
    (hrest : ∀ m ∈ own, m ≠ n → m ∈ own') (hl : OwnPlace t d n u₁ u₂ l)
    (h₁ : Writes u₁ p l content v₁) (h₂ : Writes u₂ p l content v₂) :
    Paired t d own' True v₁ v₂ := by
  obtain ⟨mode₁, hmode₁, hset₁⟩ := h₁.sets
  obtain ⟨mode₂, hmode₂, hset₂⟩ := h₂.sets
  rcases hl with rfl | ⟨hout, hf, hlink⟩
  · exact h.set hsub hrest (h.plain n hown).ne_directory (.file trivial ⟨content, mode₁, rfl⟩)
      (.inr ⟨content, mode₁, mode₂, rfl, rfl⟩) hset₁ hset₂
  -- The file lies outside, where the trees agree, so it has one mode in both.
  obtain ⟨old, mode, he₁⟩ := (h.refilled.isFile_iff hout).mpr hf
  obtain rfl := hmode₁ old mode he₁
  obtain rfl := hmode₂ old mode₁ ((h.alike.outside l hout).trans he₁)
  exact h.set_outside hsub hrest hlink hout hf ⟨content, mode₂, rfl⟩ hset₁ hset₂

theorem together_writeText (hroot : t.LeadsTo k root d) (hn : IsName n) (hown : n ∈ own)
    (hsub : own' ⊆ own) (hrest : ∀ m ∈ own, m ≠ n → m ∈ own') (text : Text) :
    Together (Paired t d own True) (writeText (join root n) text) fun _ =>
      Paired t d own' True := by
  intro u₁ u₂ h
  rw [writeText, writeBytes_apply, writeBytes_apply]
  rcases h.openForWriting hroot hn hown false with
    ⟨e, he₁, he₂⟩ | ⟨l, v₁, v₂, ho₁, ho₂, hw₁, hw₂, hl⟩
  · rw [he₁, he₂]
    exact ⟨rfl, nofun⟩
  · rw [ho₁, ho₂]
    exact ⟨rfl, fun _ _ => h.writes hown hsub hrest hl (hw₁.overwrite _) (hw₂.overwrite _)⟩

theorem together_openForWriting (hroot : t.LeadsTo k root d) (hn : IsName n) (hown : n ∈ own)
    (hsub : own' ⊆ own) (hrest : ∀ m ∈ own, m ≠ n → m ∈ own') (executable : Bool) :
    Together (Paired t d own True) (openForWriting (join root n) executable) fun l v₁ v₂ =>
      Paired t d own' True v₁ v₂ ∧
        ∃ u₁ u₂, Writes u₁ (join root n) l [] v₁ ∧ Writes u₂ (join root n) l [] v₂ := by
  intro u₁ u₂ h
  rcases h.openForWriting hroot hn hown executable with
    ⟨e, he₁, he₂⟩ | ⟨l, v₁, v₂, ho₁, ho₂, hw₁, hw₂, hl⟩
  · rw [he₁, he₂]
    exact ⟨rfl, nofun⟩
  · rw [ho₁, ho₂]
    refine ⟨rfl, fun _ hl' => ?_⟩
    cases hl'
    exact ⟨h.writes hown hsub hrest hl hw₁ hw₂, u₁, u₂, hw₁, hw₂⟩

/-! Reading. -/

theorem walkNames_congr {jump : Location → List Text → Except FileError Place}
    (hm : ∀ l, Matched (t.at? l) (u.at? l)) (aim : Aim) (dir : Location) (xs : List Text) :
    walkNames u aim jump dir xs = walkNames t aim jump dir xs := by
  induction xs generalizing dir with
  | nil => rfl
  | cons n rest ih =>
      unfold walkNames
      rw [ih, ih, ih]
      rcases hm (n :: dir) with he | ⟨content, mode, mode', h₁, h₂⟩
      · rw [he]
      · rw [h₁, h₂]

theorem walk_congr (hm : ∀ l, Matched (t.at? l) (u.at? l)) (aim : Aim) (k : Nat) :
    walk u aim k = walk t aim k := by
  induction k with
  | zero =>
      funext dir xs
      exact walkNames_congr hm aim dir xs
  | succ k ih =>
      funext dir xs
      rw [walk, walk, ih]
      exact walkNames_congr hm aim dir xs

/-- Trees that are not set apart read the same. -/
theorem Alike.readBytes_eq (h : Alike d [] t u) (p : Path) : u.readBytes p = t.readBytes p := by
  have hexisting : u.existing .target p = t.existing .target p := by
    rw [existing, existing, locate, locate, walk_congr h.matched, start, start, h.here]
  unfold readBytes status
  rw [hexisting]
  cases t.existing .target p with
  | error e => rfl
  | ok l =>
      dsimp only
      rcases h.matched l with he | ⟨content, mode, mode', h₁, h₂⟩
      · rw [he]
      · rw [h₁, h₂]
        rfl

end FileTree
end Horizon
