import Horizon.Proofs.EngineRuns
import Horizon.Proofs.StagingChanges

/-!
Which files a run of the engine can change. It stages files and then writes two of its own, by
their names in the query's directory. A file elsewhere is changed only if one of the two names
stands for a link to it there, put by a background file of that name or left from before.
-/

namespace Horizon
namespace FileTree

open Staging Horizon.Path

variable {t u v w : FileTree} {root : Path} {name : Text} {d l m : Location} {content : Bytes}
  {mode : Bool} {target : Path}

/-- A name in the directory stands for a link that leads to the location. -/
def LinksTo (t : FileTree) (root : Path) (name : Text) (d : Location) (target : Path)
    (l : Location) : Prop :=
  Reaches t root name d ∧ t.at? (name :: d) = some (.link target) ∧
    t.existing .target (join root name) = .ok l

/-- What is written by a name in a directory, to a file that is there, is the entry of that name or
what a link of that name leads to. -/
theorem Writes.entry_or_link (hn : IsName name) (h : Writes t (join root name) l content u)
    (hfile : t.at? l ≠ none) :
    (∃ d, Reaches t root name d ∧ l = name :: d) ∨ ∃ d target, LinksTo t root name d target l := by
  obtain ⟨ha, i, hi, d, hl, heq | ⟨target, hlink⟩⟩ := h.of_join hn
  · exact .inl ⟨d, ⟨ha, i, hi, hl⟩, heq⟩
  · refine .inr ⟨d, target, ⟨ha, i, hi, hl⟩, hlink, ?_⟩
    obtain ⟨e, he⟩ := Option.ne_none_iff_exists'.mp hfile
    obtain ⟨content', mode, rfl⟩ := h.plain e he
    obtain ⟨place, hlocate, rfl⟩ := h.leads
    exact existing_of_locate_file (.refl t) hlocate he

/-- `v` has the directories and the links of `u`, and what `u` has at the location. -/
structure Keeps (u : FileTree) (l : Location) (v : FileTree) : Prop where
  forth : u.Outlined v
  back : v.Outlined u
  at?_eq : v.at? l = u.at? l

theorem Keeps.refl (u : FileTree) (l : Location) : Keeps u l u := ⟨.refl u, .refl u, rfl⟩

theorem Keeps.reaches (h : Keeps u l v) (hr : Reaches v root name d) : Reaches u root name d := by
  obtain ⟨ha, i, hi, hl⟩ := hr
  refine ⟨ha, i, hi, ?_⟩
  rw [LeadsTo, h.back.start_eq]
  exact Leads.of_outlined h.back hl

theorem Keeps.linksTo (h : Keeps u l v) (hfile : u.at? l = some (.file content mode))
    (hlink : LinksTo v root name d target l) : LinksTo u root name d target l := by
  obtain ⟨hr, he, hexisting⟩ := hlink
  refine ⟨h.reaches hr, h.back.keeps_link he, ?_⟩
  obtain ⟨hchecked, hresolves⟩ := existing_ok_iff.mp hexisting
  refine existing_ok_iff.mpr ⟨hchecked, ?_⟩
  rw [h.back.start_eq]
  exact hresolves.of_outlined h.back nofun (.inr rfl) hfile nofun nofun

/-- The name leads to the location neither by an entry of its own nor by a link. -/
structure Aside (u : FileTree) (root : Path) (name : Text) (l : Location) : Prop where
  entry : ∀ d, Reaches u root name d → l ≠ name :: d
  link : ∀ d target, ¬ LinksTo u root name d target l

section
variable (h : Keeps u l v) (hfile : u.at? l = some (.file content mode)) (hn : IsName name)
  (haside : Aside u root name l)
include h hfile hn haside

/-- A file that a name does not lead to is not concerned when something is written by the name. -/
theorem Keeps.writes {content' : Bytes} (hw : Writes v (join root name) m content' w) :
    m ≠ l ∧ Keeps u l w := by
  have hne : m ≠ l := by
    rintro rfl
    rcases hw.entry_or_link hn (by simp [h.at?_eq, hfile]) with ⟨d, hr, rfl⟩ | ⟨d, target, hl⟩
    · exact haside.entry d (h.reaches hr) rfl
    · exact haside.link d target (h.linksTo hfile hl)
  obtain ⟨mode', -, hset⟩ := hw.sets
  exact ⟨hne, h.forth.trans hw.outlined, hw.outlined_back.trans h.back,
    (hset.at?_of_ne hne.symm).trans h.at?_eq⟩

theorem Keeps.writeText (text : Text) : Keeps u l (writeText (join root name) text v).2 := by
  rcases hwrite : FileTree.writeText (join root name) text v with ⟨_ | _, w⟩
  · obtain rfl := allOrNothing_writeBytes _ _ _ _ _ hwrite
    exact h
  · rcases writeBytes_ok_cases hwrite with rfl | ⟨m, hw⟩
    · exact h
    · exact (h.writes hfile hn haside hw).2

/-- What is opened for writing may also be a device, but it is another place than the file. -/
theorem Keeps.openForWriting (executable : Bool) :
    Keeps u l (openForWriting (join root name) executable v).2 ∧
      ∀ place, (openForWriting (join root name) executable v).1 = .ok place → place ≠ l := by
  rcases hopen : FileTree.openForWriting (join root name) executable v with ⟨_ | place, w⟩
  · obtain rfl := allOrNothing_openForWriting _ _ _ _ _ hopen
    exact ⟨h, nofun⟩
  · rcases openForWriting_ok_cases hopen with ⟨hdevice, rfl⟩ | hw
    · refine ⟨h, ?_⟩
      rintro _ ⟨⟩ rfl
      exact hdevice.not_plain ((h.at?_eq.trans hfile) ▸ plain_file content mode)
    · obtain ⟨hne, hkeeps⟩ := h.writes hfile hn haside hw
      refine ⟨hkeeps, ?_⟩
      rintro _ ⟨⟩
      exact hne

end

end FileTree

namespace Installation

open FileTree Staging Outcome FileOp Horizon.Path

variable {t u : FileTree} {l : Location} {content : Bytes} {mode : Bool} {i : Installation}
  {request : Request}

/-- A file elsewhere that one of the request's own names leads to. The name stands for a link in
the directory of the staged files; a background file has the name, or the link was there before. -/
def Redirects (i : Installation) (request : Request) (t : FileTree) (l : Location) : Prop :=
  ∃ name ∈ request.ownNames, ∃ d target,
    LinksTo (i.stage request t).2 i.directory name d target l ∧
      ((∃ s ∈ i.sources request, fileName? s = some name) ∨
        t.at? (name :: d) = some (.link target))

/-- No name in the query's directory, once that has been made, is the location's. -/
def Elsewhere (i : Installation) (t : FileTree) (l : Location) : Prop :=
  ∀ k d, (prepared t i.directory).LeadsTo k i.directory d → Outside d l

theorem stage_replaces (i : Installation) (request : Request) (t : FileTree) :
    Replaces (prepared t i.directory) i.directory (i.sources request) (i.stage request t).2 :=
  stage_changes t i.directory i.config.linkFiles _

theorem stage_keeps (helse : i.Elsewhere t l) (hfile : t.at? l = some (.file content mode)) :
    (i.stage request t).2.at? l = some (.file content mode) := by
  have hprepared : (prepared t i.directory).at? l = some (.file content mode) :=
    (grows_makeDirectories i.directory t).keeps l _ hfile
  rcases (i.stage_replaces request t).at?_eq l with hl | ⟨-, s, -, name, d, -, hr, rfl⟩
  · exact hl.trans hprepared
  · obtain ⟨-, k, -, hl⟩ := hr
    exact absurd rfl (helse k d hl name)

theorem redirects_of_linksTo {name : Text} {d : Location} {target : Path}
    (hname : name ∈ request.ownNames)
    (hlink : LinksTo (i.stage request t).2 i.directory name d target l) :
    i.Redirects request t l := by
  refine ⟨name, hname, d, target, hlink, ?_⟩
  have he := hlink.2.1
  rcases (i.stage_replaces request t).at?_eq (name :: d) with hl | ⟨-, s, hs, _, _, hname, -, hd⟩
  · -- A directory that has been made for the query is no link.
    rw [hl] at he
    rcases (extends_makeDirectories i.directory t).at?_eq (name :: d) with ht | ⟨-, ht⟩
    · exact .inr (ht.symm.trans he)
    · cases ht.symm.trans he
  · cases hd
    exact .inl ⟨s, hs, hname⟩

/-- Up to the start of the engine, a file elsewhere that no own name is redirected to is kept, and
it is not the place that takes the output. -/
theorem launching_keeps (hlabel : '/' ∉ request.label) (helse : i.Elsewhere t l)
    (hfile : t.at? l = some (.file content mode)) (hdirect : ¬ i.Redirects request t l) :
    (i.launching request t).Ends (Keeps (i.stage request t).2 l) fun launched _ =>
      launched.2 ≠ l := by
  have hkept : (i.stage request t).2.at? l = some (.file content mode) := stage_keeps helse hfile
  have hn : ∀ name ∈ request.ownNames, IsName name :=
    fun name => Request.isName_of_mem_ownNames hlabel
  have hprogram : request.label ++ ".asp".toList ∈ request.ownNames := List.mem_cons_self
  have houtput : request.label ++ "_output.txt".toList ∈ request.ownNames :=
    List.mem_cons_of_mem _ List.mem_cons_self
  have staged : (ofFileOp (i.stage request) .stage t).Ends (Keeps (i.stage request t).2 l)
      fun staged u => staged.path = i.directory ∧ u = (i.stage request t).2 ∧
        ∀ name ∈ request.ownNames, Aside u i.directory name l := by
    refine ends_ofFileOp (.refl ..) fun staged hok => ?_
    have hstage : i.stage request t = (.ok staged, (i.stage request t).2) := Prod.ext hok rfl
    refine ⟨path_of_stage hstage, rfl, fun name hname => ⟨fun d hr => ?_, fun d target hl => ?_⟩⟩
    · obtain ⟨-, k, -, hl⟩ := stays_of_stage hstage name d hr
      exact helse k d hl name
    · exact hdirect (redirects_of_linksTo hname hl)
  refine staged.andThen ?_
  rintro staged u ⟨hpath, rfl, haside⟩
  dsimp only [CommandLine.ofRequest]
  rw [hpath]
  have written := Keeps.writeText (.refl _ l) hkept (hn _ hprogram) (haside _ hprogram)
    (request.program ++ ['\n'])
  refine Ends.andThen (ends_ofFileOp written fun _ _ => written) fun _ v hv => ?_
  obtain ⟨opened, hne⟩ := hv.openForWriting hkept (hn _ houtput) (haside _ houtput) false
  refine Ends.andThen (S := fun place w => Keeps (i.stage request t).2 l w ∧ place ≠ l)
    (ends_ofFileOp opened fun place hplace => ⟨opened, hne place hplace⟩) ?_
  rintro place w ⟨hw, hne⟩
  refine ⟨hw, ?_⟩
  rintro _ ⟨⟩
  exact hne

/-- Whatever comes of a run, a file elsewhere is kept unless one of the request's own names is
redirected to it. -/
theorem solve_keeps {host : Host} (hhost : host.WritesOutputOnly) (hlabel : '/' ∉ request.label)
    (helse : i.Elsewhere t l) (hfile : t.at? l = some (.file content mode)) :
    (solve host i request t).state.at? l = some (.file content mode) ∨
      i.Redirects request t l := by
  by_cases hdirect : i.Redirects request t l
  · exact .inr hdirect
  obtain ⟨hkeeps, hplace⟩ := launching_keeps hlabel helse hfile hdirect
  have hkept := hkeeps.at?_eq.trans (stage_keeps helse hfile)
  left
  rcases state_solve_cases host i request t with hstate | ⟨launched, hlaunched, hstate⟩
  · exact hstate ▸ hkept
  · rw [hstate, hhost _ _ l (hplace launched hlaunched).symm]
    exact hkept

/-- A background file with the name of a program, and another one. -/
def background : FileTree := ofEntries
  [(["a".toList], .directory), (["query.asp".toList, "a".toList], .file [49] false),
    (["x".toList, "a".toList], .file [50] false)]

/-- An engine that finds nothing. -/
def silent : Behaviour := fun _ _ _ => .ok ([], { status := .code 20 })

/-- A run that shares a file with a name of its own changes none of the files. -/
theorem solve_keeps_background :
    (∀ l content mode, background.at? l = some (.file content mode) → l.tail = ["a".toList] →
      (solve silent.host (sharing "/a/x".toList) plainRequest background).state.at? l =
          some (.file content mode) ∨
        (sharing "/a/x".toList).Redirects plainRequest background l) ∧
    (solve silent.host (sharing "/a/x".toList) plainRequest background).result =
      .ok ⟨"/q/query_output.txt".toList, []⟩ := by
  refine ⟨fun l content mode hfile htail => ?_, by decide +kernel⟩
  refine solve_keeps silent.writesOutputOnly (by decide) ?_ hfile
  have proper : Storable "q".toList := ⟨⟨by decide, by decide, by decide, by decide⟩, by decide⟩
  have leads : (prepared background "/q".toList).LeadsTo 0 "/q".toList ["q".toList] :=
    .idle (.inl rfl) (.down proper rfl .here)
  rintro k d hl n rfl
  obtain rfl := leads.unique hl
  cases htail

/-- The program is written through the link that has been made for the background file. -/
theorem solve_overwrites_background :
    background.regularFile "/a/query.asp".toList = .ok ([49], false) ∧
    (solve silent.host (sharing "/a/query.asp".toList) plainRequest background).result =
      .ok ⟨"/q/query_output.txt".toList, []⟩ ∧
    (solve silent.host (sharing "/a/query.asp".toList) plainRequest background).state.regularFile
        "/a/query.asp".toList = .ok (Utf8.encode ['p', '.', '\n'], false) := by decide +kernel

end Installation
end Horizon
