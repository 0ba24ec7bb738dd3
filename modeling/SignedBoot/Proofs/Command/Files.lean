import Mathlib
import SignedBoot.Command.Files

/-!
# Files after a write

What a file system has to keep for a file to be read back, and for the other files to stay as they
are (`FileStore.Lawful`). Trees keep it: a file is written into a directory that is there already,
so no path leads to another place afterwards, and only the written place has other contents
(`FileTree.lawful_store`). A file that holds a text holds the octets of that text and no others
(`toList_toUTF8_of_textOf?`).
-/

namespace SignedBoot

/-! ### Texts -/

theorem toList_loop_eq (b : ByteArray) (i : Nat) (r : Bytes) :
    ByteArray.toList.loop b i r = r.reverse ++ b.data.toList.drop i := by
  fun_induction ByteArray.toList.loop b i r with
  | case1 i r hi ih =>
    have hget : b.get! i = b.data.toList[i] := by
      simp [ByteArray.get!, hi]
    rw [ih, List.reverse_cons, List.append_assoc, List.singleton_append, hget,
      ← List.drop_eq_getElem_cons]
  | case2 i r hi => rw [List.drop_eq_nil_of_le (not_lt.mp hi), List.append_nil]

theorem byteArray_toList_eq (b : ByteArray) : b.toList = b.data.toList := by
  rw [ByteArray.toList, toList_loop_eq]
  rfl

theorem toList_toUTF8_of_textOf? {contents : Bytes} {text : String}
    (h : textOf? contents = some text) : text.toUTF8.toList = contents := by
  unfold textOf? String.fromUTF8? at h
  split at h
  · cases h
    exact byteArray_toList_eq _
  · cases h

theorem textOf?_toUTF8 (text : String) : textOf? text.toUTF8.toList = some text := by
  rw [byteArray_toList_eq]
  exact dif_pos text.isValidUTF8

/-- Octets below 0x80 are a text. -/
theorem exists_textOf? {contents : Bytes} (h : ∀ x ∈ contents, x < 0x80) :
    ∃ text, textOf? contents = some text := by
  refine ⟨_, dif_pos (Std.Http.URI.isValidUTF8_of_isAsciiByte _ ?_)⟩
  simpa [Std.Http.Internal.Char.isAsciiByte] using h

/-! ### File systems -/

namespace FileStore

variable {σ : Type} {store : FileStore σ} {t u : σ}

/-- The text of a file. -/
def text? (store : FileStore σ) (t : σ) (path : String) : Option String :=
  store.read? t path >>= textOf?

/-- After a write that succeeds the written contents are read under its path, and what was there
before under every path that does not lead to the same file. -/
structure Lawful (store : FileStore σ) (same : σ → String → String → Prop) : Prop where
  read_written : ∀ {t u path contents}, store.write t path contents = (true, u) →
    store.read? u path = some contents
  read_other : ∀ {t u path contents}, store.write t path contents = (true, u) →
    ∀ {other}, ¬ same t path other → store.read? u other = store.read? t other

theorem Lawful.text?_other {same : σ → String → String → Prop} (h : store.Lawful same)
    {path other : String} {contents : Bytes} (hwrite : store.write t path contents = (true, u))
    (hother : ¬ same t path other) : store.text? u other = store.text? t other := by
  rw [text?, text?, h.read_other hwrite hother]

end FileStore

namespace FileTree

variable {t u : FileTree}

/-! ### Directories -/

theorem isDirectory_iff {place : List String} :
    t.isDirectory place = true ↔
      place = [] ∨ ∃ f ∈ t.files, place <+: f.1 ∧ place ≠ f.1 := by
  simp [isDirectory]

theorem isDirectory_of_prefix {place place' : List String} (h : place' <+: place)
    (hd : t.isDirectory place = true) : t.isDirectory place' = true := by
  rcases isDirectory_iff.mp hd with rfl | ⟨f, hf, habove, hne⟩
  · exact isDirectory_iff.mpr (.inl (List.prefix_nil.mp h))
  · refine isDirectory_iff.mpr (.inr ⟨f, hf, h.trans habove, ?_⟩)
    rintro rfl
    exact hne (habove.eq_of_length_le h.length_le)

/-- What is above a place in a directory is a directory. -/
theorem isDirectory_above {place above : List String} {name : String}
    (hd : t.isDirectory place = true) (h : above <+: place ++ [name])
    (hne : above ≠ place ++ [name]) : t.isDirectory above = true := by
  rcases List.prefix_concat_iff.mp h with rfl | h
  · exact absurd rfl hne
  · exact isDirectory_of_prefix h hd

/-! ### Places -/

/-- Names that stand for an entry of the directory they are looked up in. -/
def IsEntry (name : String) : Prop := name ≠ "" ∧ name ≠ "." ∧ name ≠ ".."

/-- A walk whose last name is that of a file ends in a directory that is there. -/
theorem exists_of_walk? {names place q : List String} (hne : names ≠ [])
    (hname : IsEntry (names.getLast hne)) (h : t.walk? names place = some q) :
    ∃ d, q = d ++ [names.getLast hne] ∧ t.isDirectory d = true := by
  induction names generalizing place with
  | nil => exact absurd rfl hne
  | cons name names ih =>
    rw [walk?] at h
    split at h
    · cases h
    rename_i hdirectory
    cases names with
    | nil =>
      obtain ⟨hempty, hdot, hdots⟩ := hname
      simp only [List.getLast_singleton] at hempty hdot hdots
      rw [if_neg (not_or.mpr ⟨hempty, hdot⟩), if_neg hdots] at h
      cases h
      exact ⟨place, rfl, not_not.mp hdirectory⟩
    | cons next rest =>
      rw [List.getLast_cons (List.cons_ne_nil _ _)] at hname ⊢
      split at h
      · exact ih _ hname h
      split at h
      · split at h
        · cases h
        · exact ih _ hname h
      · exact ih _ hname h

/-- Where the same directories are there, paths lead to the same places. -/
theorem walk?_congr (h : ∀ place, u.isDirectory place = t.isDirectory place)
    (names place : List String) : u.walk? names place = t.walk? names place := by
  induction names generalizing place with
  | nil => rfl
  | cons name names ih => simp only [walk?, h, ih]

theorem place?_congr (h : ∀ place, u.isDirectory place = t.isDirectory place) (path : String) :
    u.place? path = t.place? path := by
  rw [place?, place?, walk?_congr h]

/-- A path of one name leads to the entry of that name at the top. -/
structure TopName (path : String) : Prop where
  isAbsolute : Path.isAbsolute path = false
  names : Path.names path = [path]
  isEntry : IsEntry path

theorem TopName.place?_eq {path : String} (h : TopName path) (t : FileTree) :
    t.place? path = some [path] := by
  obtain ⟨hempty, hdot, hdots⟩ := h.isEntry
  have htop : t.isDirectory [] = true := isDirectory_iff.mpr (.inl rfl)
  rw [place?, h.isAbsolute, h.names]
  simp [walk?, htop, hempty, hdot, hdots]

/-! ### Writing -/

/-- A write leaves a tree with the file in a directory that was there. -/
theorem exists_of_write? {path : String} {contents : Bytes} (h : t.write? path contents = some u) :
    ∃ d name, t.place? path = some (d ++ [name]) ∧ t.isDirectory d = true ∧
      u = ⟨(d ++ [name], contents) :: t.files.filter fun f => f.1 ≠ d ++ [name]⟩ := by
  unfold write? at h
  obtain ⟨place, hplace, h⟩ := Option.bind_eq_some_iff.mp h
  dsimp only at h
  split at h
  · cases h
  rename_i hname
  cases h
  simp only [not_or] at hname
  obtain ⟨hempty, hdot, hdots, -⟩ := hname
  have hne : Path.names path ≠ [] := by
    intro hnil
    rw [hnil] at hempty
    exact hempty rfl
  rw [List.getLast?_eq_some_getLast hne, Option.getD_some] at hempty hdot hdots
  have hwalk := hplace
  unfold place? at hwalk
  split at hwalk
  · cases hwalk
  obtain ⟨d, rfl, hd⟩ := exists_of_walk? hne ⟨hempty, hdot, hdots⟩ hwalk
  exact ⟨d, _, hplace, hd, rfl⟩

theorem isDirectory_of_write? {path : String} {contents : Bytes}
    (h : t.write? path contents = some u) (place : List String) :
    u.isDirectory place = t.isDirectory place := by
  obtain ⟨d, name, -, hd, rfl⟩ := exists_of_write? h
  rw [Bool.eq_iff_iff, isDirectory_iff]
  simp only [List.mem_cons, List.mem_filter, decide_eq_true_eq]
  constructor
  · rintro (rfl | ⟨f, rfl | ⟨hf, -⟩, habove, hne⟩)
    · exact isDirectory_iff.mpr (.inl rfl)
    · exact isDirectory_above hd habove hne
    · exact isDirectory_iff.mpr (.inr ⟨f, hf, habove, hne⟩)
  · intro hdirectory
    rcases isDirectory_iff.mp hdirectory with rfl | ⟨f, hf, habove, hne⟩
    · exact .inl rfl
    · by_cases hplace : f.1 = d ++ [name]
      · rw [hplace] at habove hne
        exact .inr ⟨_, .inl rfl, habove, hne⟩
      · exact .inr ⟨f, .inr ⟨hf, hplace⟩, habove, hne⟩

theorem lookup_filter_ne {α β : Type} [BEq α] [LawfulBEq α] [DecidableEq α] (l : List (α × β))
    {a b : α} (h : b ≠ a) : (l.filter fun f => f.1 ≠ a).lookup b = l.lookup b := by
  induction l with
  | nil => rfl
  | cons f l ih =>
    obtain ⟨c, x⟩ := f
    by_cases hc : c = a
    · have hbc : (b == c) = false := by
        rw [hc]
        exact beq_false_of_ne h
      rw [List.filter_cons_of_neg (by simpa using hc), List.lookup_cons, hbc, ih]
    · rw [List.filter_cons_of_pos (by simpa using hc), List.lookup_cons, List.lookup_cons, ih]

/-- After a write every path that leads to the written place reads the written contents, and every
other path reads what it read before. -/
theorem read?_of_write? {path : String} {contents : Bytes} (h : t.write? path contents = some u)
    (other : String) :
    u.read? other = if t.place? other = t.place? path then some contents else t.read? other := by
  have hplace := place?_congr (isDirectory_of_write? h) other
  obtain ⟨d, name, hpath, -, rfl⟩ := exists_of_write? h
  rw [read?, hplace, hpath]
  rcases hother : t.place? other with _ | q
  · rw [if_neg (by simp), read?, hother]
    rfl
  · simp only [read?, hother, Option.some.injEq, Option.bind_eq_bind, Option.bind_some]
    by_cases hq : q = d ++ [name]
    · rw [if_pos hq, hq]
      exact List.lookup_cons_self
    · have hne : (q == d ++ [name]) = false := beq_false_of_ne hq
      rw [if_neg hq, List.lookup_cons, hne, ← lookup_filter_ne t.files hq]

theorem TopName.exists_write? {path : String} (h : TopName path)
    (hd : t.isDirectory [path] = false) (contents : Bytes) :
    ∃ u, t.write? path contents = some u := by
  obtain ⟨hempty, hdot, hdots⟩ := h.isEntry
  rw [write?, h.place?_eq, h.names]
  simp [hempty, hdot, hdots, hd]

theorem store_write_eq_true_iff {path : String} {contents : Bytes} :
    store.write t path contents = (true, u) ↔ t.write? path contents = some u := by
  simp only [store]
  cases t.write? path contents <;> simp

/-- Two paths lead to one file of a tree when they lead to one place. -/
theorem lawful_store : store.Lawful fun t path other => t.place? path = t.place? other where
  read_written h := by
    change read? _ _ = _
    rw [read?_of_write? (store_write_eq_true_iff.mp h), if_pos rfl]
  read_other h other hne := by
    change read? _ _ = read? _ _
    rw [read?_of_write? (store_write_eq_true_iff.mp h), if_neg (Ne.symm hne)]

end FileTree

end SignedBoot
