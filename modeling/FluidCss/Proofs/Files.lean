import FluidCss.Files
import FluidCss.Proofs.Result
import Mathlib.Data.List.Infix

/-!
# Paths and files

* `Path.ofString_normalPath`: a path in normal form is its own normal form, so the steps of a path
  can be read off its text.
* `Files.isReached_of_follow`: where a path leads, there are directories all the way.
* `Files.Admits.put`: writing a file changes what stands at its place and nothing else.

Going up and going down keep that all places above are directories, since a step only starts from a
directory. A file that is written where a path leads hence makes no directory of a place that was
none. -/

namespace FluidCss

namespace Path

/-! ## Normal forms -/

/-- A step that a normal form keeps. -/
structure IsStep (part : String) : Prop where
  slash : '/' ∉ part.toList
  ne_empty : part ≠ ""
  ne_dot : part ≠ "."

theorem splitSlashes_ne_nil : ∀ cs : List Char, splitSlashes cs ≠ []
  | [] => nofun
  | c :: cs => by
    unfold splitSlashes
    split
    · split <;> nofun
    · nofun

theorem splitSlashes_cons_of_ne {c : Char} (hc : c ≠ '/') {cs part : List Char}
    {parts : List (List Char)} (h : splitSlashes cs = part :: parts) :
    splitSlashes (c :: cs) = (c :: part) :: parts := by
  rw [splitSlashes, h]
  exact if_neg hc

theorem splitSlashes_slash (cs : List Char) : splitSlashes ('/' :: cs) = [] :: splitSlashes cs := by
  rw [splitSlashes]
  cases h : splitSlashes cs with
  | nil => exact absurd h (splitSlashes_ne_nil cs)
  | cons part parts => rfl

theorem notMem_of_mem_splitSlashes : ∀ {cs part : List Char}, part ∈ splitSlashes cs → '/' ∉ part
  | [], part, h => by
    rw [List.mem_singleton.1 h]
    exact List.not_mem_nil
  | c :: cs, part, h => by
    obtain ⟨first, others, hcs⟩ := List.exists_cons_of_ne_nil (splitSlashes_ne_nil cs)
    by_cases hc : c = '/'
    · rw [hc, splitSlashes_slash, List.mem_cons] at h
      rcases h with rfl | h
      · exact List.not_mem_nil
      · exact notMem_of_mem_splitSlashes h
    · rw [splitSlashes_cons_of_ne hc hcs, List.mem_cons] at h
      have hrest : ∀ p ∈ first :: others, '/' ∉ p := fun p hp =>
        notMem_of_mem_splitSlashes (hcs ▸ hp)
      rcases h with rfl | h
      · exact List.not_mem_cons_of_ne_of_not_mem (Ne.symm hc) (hrest first List.mem_cons_self)
      · exact hrest part (List.mem_cons_of_mem _ h)

theorem splitSlashes_append {part : List Char} (h : '/' ∉ part) (cs : List Char) :
    splitSlashes (part ++ '/' :: cs) = part :: splitSlashes cs := by
  induction part with
  | nil => exact splitSlashes_slash cs
  | cons c part ih =>
    rw [List.mem_cons, not_or] at h
    exact splitSlashes_cons_of_ne (Ne.symm h.1) (ih h.2)

theorem splitSlashes_of_notMem {part : List Char} (h : '/' ∉ part) :
    splitSlashes part = [part] := by
  induction part with
  | nil => rfl
  | cons c part ih =>
    rw [List.mem_cons, not_or] at h
    exact splitSlashes_cons_of_ne (Ne.symm h.1) (ih h.2)

theorem splitSlashes_intercalate : ∀ {parts : List (List Char)}, parts ≠ [] →
    (∀ part ∈ parts, '/' ∉ part) → splitSlashes (['/'].intercalate parts) = parts
  | [part], _, h => by
    have := splitSlashes_of_notMem (h part List.mem_cons_self)
    simpa [List.intercalate] using this
  | part :: next :: parts, _, h => by
    have hrest := splitSlashes_intercalate (List.cons_ne_nil next parts)
      fun p hp => h p (List.mem_cons_of_mem _ hp)
    have := splitSlashes_append (h part List.mem_cons_self) (['/'].intercalate (next :: parts))
    rw [hrest] at this
    simpa [List.intercalate] using this

/-- The slashes at the start of a normal form. -/
def IsRoot (root : String) : Prop := root = "" ∨ root = "/" ∨ root = "//"

theorem isRoot_rootOf (s : String) : IsRoot (rootOf s) := by
  unfold rootOf
  split
  · exact .inl rfl
  · exact .inr (.inr rfl)
  · exact .inr (.inl rfl)

theorem takeWhile_slashes {root : String} (h : IsRoot root) {cs : List Char}
    (hcs : ∀ c ∈ cs.head?, c ≠ '/') : (root.toList ++ cs).takeWhile (· == '/') = root.toList := by
  have hstop : cs.takeWhile (· == '/') = [] := by
    cases cs with
    | nil => rfl
    | cons c cs => simp [hcs c rfl]
  rcases h with rfl | rfl | rfl <;> simp [hstop]

theorem rootOf_eq {root : String} (h : IsRoot root) {s : String} {cs : List Char}
    (hs : s.toList = root.toList ++ cs) (hcs : ∀ c ∈ cs.head?, c ≠ '/') : rootOf s = root := by
  rw [rootOf, hs, takeWhile_slashes h hcs]
  rcases h with rfl | rfl | rfl <;> rfl

theorem steps_kept {parts : List String} (h : ∀ part ∈ parts, IsStep part) :
    ((parts.map String.toList).map String.ofList).filter (fun p => p != "" && p != ".") =
    parts := by
  have hid : String.ofList ∘ String.toList = id := funext fun _ => String.ofList_toList
  rw [List.map_map, hid, List.map_id, List.filter_eq_self]
  intro part hpart
  simp [(h part hpart).ne_empty, (h part hpart).ne_dot]

/-- The first step begins the text of the steps, and not with a slash. -/
theorem head_steps {part : String} (h : IsStep part) (parts : List (List Char)) :
    ∀ c ∈ (['/'].intercalate (part.toList :: parts)).head?, c ≠ '/' := by
  obtain ⟨first, cs, hcs⟩ := List.exists_cons_of_ne_nil (mt String.toList_eq_nil_iff.1 h.ne_empty)
  have hfirst : first ≠ '/' := fun heq => h.slash (by simp [hcs, heq])
  cases parts <;> simpa [List.intercalate, hcs] using hfirst

/-- A path in normal form is read as itself. -/
theorem ofString_toString {p : Path} (hroot : IsRoot p.root)
    (hparts : ∀ part ∈ p.parts, IsStep part) :
    ofString p.toString = p := by
  obtain ⟨root, parts⟩ := p
  cases parts with
  | nil => rcases hroot with rfl | rfl | rfl <;> rfl
  | cons part parts =>
    have hslashes : ∀ cs ∈ (part :: parts).map String.toList, '/' ∉ cs := by
      intro cs hcs
      obtain ⟨p, hp, rfl⟩ := List.mem_map.1 hcs
      exact (hparts p hp).slash
    have htext : (toString ⟨root, part :: parts⟩).toList =
        root.toList ++ ['/'].intercalate ((part :: parts).map String.toList) := by
      simp [toString, String.toList_intercalate]
    -- The first step is not empty, so the slashes before it are those of the root.
    have hhead := head_steps (hparts part List.mem_cons_self) (parts.map String.toList)
    have hsplit := splitSlashes_intercalate (by simp) hslashes
    unfold ofString
    rw [rootOf_eq hroot htext hhead, htext]
    have hkept := steps_kept hparts
    generalize (part :: parts).map String.toList = steps at *
    -- Slashes at the start only give empty steps, which are left out.
    have hempty : ((splitSlashes (root.toList ++ ['/'].intercalate steps)).map String.ofList).filter
          (fun p => p != "" && p != ".") =
        ((splitSlashes (['/'].intercalate steps)).map String.ofList).filter
          (fun p => p != "" && p != ".") := by
      rcases hroot with rfl | rfl | rfl <;> simp [splitSlashes_slash]
    rw [hempty, hsplit, hkept]

theorem isStep_of_mem_ofString {s part : String} (h : part ∈ (ofString s).parts) : IsStep part := by
  obtain ⟨hmem, hkept⟩ := List.mem_filter.1 h
  obtain ⟨cs, hcs, rfl⟩ := List.mem_map.1 hmem
  refine ⟨?_, ?_, ?_⟩
  · rw [String.toList_ofList]
    exact notMem_of_mem_splitSlashes hcs
  · intro heq
    simp [heq] at hkept
  · intro heq
    simp [heq] at hkept

theorem ofString_normalPath (s : String) : ofString (normalPath s) = ofString s :=
  ofString_toString (isRoot_rootOf s) fun _ => isStep_of_mem_ofString

end Path

namespace Files

variable {files : Files} {place other : Place} {path : String}

theorem follow_normalPath (files : Files) (path : String) :
    files.follow (normalPath path) = files.follow path := by
  unfold follow
  rw [Path.ofString_normalPath]

/-! ## Directories -/

theorem isDirectory_iff : files.isDirectory place ↔ place <+: files.home ∨
    ∃ name ∈ files.contents.map Prod.fst, place <+: name ∧ place ≠ name := by
  have hshorter (name : Place) : place <+: name ∧ place.length < name.length ↔
      place <+: name ∧ place ≠ name := by
    refine and_congr_right fun hleads => ⟨fun hlt heq => ?_, fun hne => ?_⟩
    · rw [heq] at hlt
      exact lt_irrefl _ hlt
    · exact lt_of_le_of_ne hleads.length_le fun hlength => hne (hleads.eq_of_length hlength)
  simp [isDirectory, hshorter]

/-- Everything that leads to a place is a directory. -/
def IsReached (files : Files) (place : Place) : Prop :=
  ∀ above, above <+: place → above ≠ place → files.isDirectory above

theorem isReached_root : files.IsReached [] := by
  intro above hleads hne
  exact absurd (List.prefix_nil.1 hleads) hne

theorem isReached_home : files.IsReached files.home := by
  intro above hleads _
  exact isDirectory_iff.2 (.inl hleads)

theorem isDirectory_of_entry (h : files.entry place = .directory) : files.isDirectory place := by
  unfold entry at h
  split at h
  · assumption
  · split at h <;> cases h

/-- A step starts from a directory, so what it comes to is reached if that is. -/
theorem IsReached.step {part : String} (h : files.IsReached place)
    (hstep : files.step place part = .ok other) : files.IsReached other := by
  unfold Files.step at hstep
  split at hstep
  · cases hstep
  · cases hstep
  · rename_i hentry
    have hhere := isDirectory_of_entry hentry
    split at hstep
    · cases hstep
    split at hstep
    · cases hstep
      -- One level up the places above are among those above the start.
      intro above hleads hne
      by_cases heq : above = place
      · exact heq ▸ hhere
      · exact h above (hleads.trans place.dropLast_prefix) heq
    split at hstep
    · cases hstep
    · cases hstep
      -- One level down the start itself is the only place that is new above.
      intro above hleads hne
      rcases List.prefix_concat_iff.1 hleads with heq | hleads
      · exact absurd heq hne
      · by_cases heq : above = place
        · exact heq ▸ hhere
        · exact h above hleads heq

/-- **Where a path leads, there are directories all the way.** -/
theorem isReached_of_follow (h : files.follow path = .ok place) : files.IsReached place := by
  unfold follow at h
  dsimp only at h
  split at h
  · cases h
  split at h
  · cases h
  -- Each step starts from a directory, so the invariant goes through all of them.
  have hrun : ∀ (parts : List String) (start : Place), files.IsReached start →
      parts.foldlM files.step start = .ok place → files.IsReached place := by
    intro parts
    induction parts with
    | nil =>
      intro start hstart h
      cases h
      exact hstart
    | cons part parts ih =>
      intro start hstart h
      rw [List.foldlM_cons] at h
      obtain ⟨next, hnext, h⟩ := bind_eq_ok.1 h
      exact ih next (hstart.step hnext) h
  refine hrun _ _ ?_ h
  split
  · exact isReached_home
  · exact isReached_root

/-! ## Writing -/

theorem mem_names_put {name : Place} (content : FileContent) :
    name ∈ (files.put place content).contents.map Prod.fst ↔
      name ∈ files.contents.map Prod.fst ∨ name = place := by
  rw [put, Ordered.keys_put]
  split
  · rename_i hold
    exact ⟨.inl, fun h => h.elim id fun heq => heq ▸ hold⟩
  · rw [List.mem_append, List.mem_singleton]

/-- A file that is written where a path leads makes no new directories. -/
theorem isDirectory_put (h : files.IsReached place) (content : FileContent) (other : Place) :
    (files.put place content).isDirectory other = files.isDirectory other := by
  rw [Bool.eq_iff_iff, isDirectory_iff, isDirectory_iff]
  simp only [mem_names_put]
  constructor
  · intro hdirectory
    rcases hdirectory with hhome | ⟨name, hname | rfl, hleads, hne⟩
    · exact .inl hhome
    · exact .inr ⟨name, hname, hleads, hne⟩
    · exact isDirectory_iff.1 (h other hleads hne)
  · intro hdirectory
    apply hdirectory.imp_right
    intro ⟨name, hname, hleads, hne⟩
    exact ⟨name, .inl hname, hleads, hne⟩

theorem entry_put (h : files.IsReached place) (hplace : files.entry place ≠ .directory)
    (content : FileContent) :
    (files.put place content).entry place = .file content := by
  have hfile : files.isDirectory place = false := by
    rw [← Bool.not_eq_true]
    intro hdirectory
    exact hplace (by rw [entry, if_pos hdirectory])
  rw [entry, isDirectory_put h, hfile]
  simp [put]

theorem entry_put_of_ne (h : files.IsReached place) (content : FileContent) (hne : other ≠ place) :
    (files.put place content).entry other = files.entry other := by
  rw [entry, entry, isDirectory_put h, put, Ordered.get?_put_of_ne hne]

/-- A path lets a file be written at a place, for which a new one needs its directory. -/
structure Admits (files : Files) (path : String) (place : Place) : Prop where
  follow : files.follow path = .ok place
  file : files.entry place ≠ .directory
  old : ∀ content, files.entry place = .file content → (place, .write) ∉ files.refused
  new : files.entry place = .nothing → (place.dropLast, .write) ∉ files.refused

theorem refuses_eq_false_iff {access : Access} :
    files.refuses place access = false ↔ (place, access) ∉ files.refused := by
  simp [refuses]

theorem target_eq_ok_iff : files.target path = .ok place ↔ files.Admits path place := by
  -- Both kinds of places end with a check of who may write there.
  have hok {found : Place} (refused : Bool) :
      (if refused then throw FileFault.denied else pure found : Except FileFault Place) =
        .ok place ↔
        refused = false ∧ found = place := by
    cases refused with
    | true => exact ⟨nofun, nofun⟩
    | false => exact ⟨fun h => ⟨rfl, pure_eq_ok.1 h⟩, fun h => pure_eq_ok.2 h.2⟩
  constructor
  · intro h
    obtain ⟨found, hfollow, h⟩ := bind_eq_ok.1 h
    cases hentry : files.entry found with
    | directory =>
      rw [hentry] at h
      cases h
    | file content =>
      rw [hentry] at h
      obtain ⟨hallowed, rfl⟩ := (hok _).1 h
      exact ⟨hfollow, by simp [hentry], fun _ _ => refuses_eq_false_iff.1 hallowed,
        by simp [hentry]⟩
    | nothing =>
      rw [hentry] at h
      obtain ⟨hallowed, rfl⟩ := (hok _).1 h
      exact ⟨hfollow, by simp [hentry], by simp [hentry],
        fun _ => refuses_eq_false_iff.1 hallowed⟩
  · intro h
    refine bind_eq_ok.2 ⟨place, h.follow, ?_⟩
    cases hentry : files.entry place with
    | directory => exact absurd hentry h.file
    | file content => exact (hok _).2 ⟨refuses_eq_false_iff.2 (h.old content hentry), rfl⟩
    | nothing => exact (hok _).2 ⟨refuses_eq_false_iff.2 (h.new hentry), rfl⟩

/-- **Writing a file changes what stands at its place and nothing else.** -/
theorem Admits.put (h : files.Admits path place) (content : FileContent) :
    (files.put place content).entry place = .file content ∧
      ∀ other ≠ place, (files.put place content).entry other = files.entry other := by
  have hreached := isReached_of_follow h.follow
  exact ⟨entry_put hreached h.file content, fun other hne => entry_put_of_ne hreached content hne⟩

end Files

end FluidCss
