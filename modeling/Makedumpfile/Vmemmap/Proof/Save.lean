import Makedumpfile.Vmemmap.Save

/-!
# The queue gives back what was saved

While entries are saved, the file has the full pages and the buffer the rest (`Saved`); the buffer is
only empty before the first entry. After the reset the file starts with all entries, and between two
reads the rest of the buffer is what comes next in the file (`Reading`). So every call returns the
next entry (`Reading.getDeletes`), and after the last one FALSE.
-/

namespace Vmemmap

open Lib ByteFile

variable {be : Bool} {page : Nat} {es : List ScEntry} {sc : SaveControl} {k : Nat}

/-- An entry of two values of 64 bits. -/
def ScEntry.Fits (e : ScEntry) : Prop := e.startpfn < 2 ^ 64 ∧ e.numpfns < 2 ^ 64

@[simp] theorem length_bytes (be : Bool) (e : ScEntry) : (e.bytes be).length = 16 := by
  simp [ScEntry.bytes]

/-- The bytes of a list of entries. -/
def entriesBytes (be : Bool) (es : List ScEntry) : List UInt8 := es.flatMap (ScEntry.bytes be)

@[simp] theorem length_entriesBytes (be : Bool) (es : List ScEntry) :
    (entriesBytes be es).length = 16 * es.length := by
  induction es with
  | nil => rfl
  | cons e es ih =>
    simp only [entriesBytes, List.flatMap_cons, List.length_append, length_bytes,
      List.length_cons] at ih ⊢
    omega

theorem entriesBytes_append (be : Bool) (es es' : List ScEntry) :
    entriesBytes be (es ++ es') = entriesBytes be es ++ entriesBytes be es' := by
  simp [entriesBytes]

/-! ## Saving -/

/-- After saving `done ++ rest`: the file has the pages of `done`, the buffer the entries `rest`. -/
structure Saved (be : Bool) (page : Nat) (done rest : List ScEntry) (sc : SaveControl) : Prop where
  bigendian : sc.bigendian = be
  buflen : sc.buflen = page
  length : sc.buf.length = page
  file : sc.file = entriesBytes be done
  offset : sc.offset = sc.file.length
  filelen : sc.filelen = sc.file.length
  fileposition : sc.fileposition = 0
  bufposition : sc.bufposition = 16 * rest.length
  holds : Holds sc.buf 0 (entriesBytes be rest)
  fits : 16 * rest.length ≤ page
  pages : page ∣ sc.file.length

theorem saved_init (be : Bool) (page : Nat) : Saved be page [] [] (initSaveControl be page) where
  bigendian := rfl
  buflen := rfl
  length := List.length_replicate
  file := rfl
  offset := rfl
  filelen := rfl
  fileposition := rfl
  bufposition := rfl
  holds := holds_nil _ _
  fits := Nat.zero_le _
  pages := Nat.dvd_zero _

/-- A buffer that the entries fill is all in them. -/
theorem Saved.buf_eq {done rest : List ScEntry} (h : Saved be page done rest sc)
    (hfull : 16 * rest.length = page) : sc.buf = entriesBytes be rest := by
  have := h.holds
  rw [Holds, pread, length_entriesBytes, List.drop_zero, hfull, ← h.length, List.take_length] at this
  exact this

/-- Writing out a full buffer. -/
theorem Saved.flushFull {done rest : List ScEntry} (h : Saved be page done rest sc)
    (hp : 16 ∣ page) (hpos : 0 < page) :
    ∃ done' rest', done' ++ rest' = done ++ rest ∧ Saved be page done' rest' sc.flushFull ∧
      16 * rest'.length + 16 ≤ page := by
  unfold SaveControl.flushFull
  rw [h.bufposition, h.buflen]
  by_cases hfull : 16 * rest.length = page
  · rw [if_pos hfull]
    have hfile : sc.file.pwrite sc.offset sc.buf = entriesBytes be (done ++ rest) := by
      rw [h.offset, h.buf_eq hfull, entriesBytes_append, ← h.file, pwrite_at_end]
    have hlen : (entriesBytes be (done ++ rest)).length = sc.file.length + page := by
      rw [entriesBytes_append, List.length_append, ← h.file, length_entriesBytes, hfull]
    refine ⟨done ++ rest, [], List.append_nil _,
      ⟨h.bigendian, h.buflen, h.length, hfile, ?_, ?_, h.fileposition, rfl, holds_nil _ _,
        Nat.zero_le _, ?_⟩, ?_⟩
    · simp only [SaveControl.writeBuf]
      rw [hfile, hlen, h.offset, h.buflen]
    · simp only [SaveControl.writeBuf]
      rw [hfile, hlen, h.filelen]
    · simp only [SaveControl.writeBuf]
      rw [hfile, hlen]
      exact Nat.dvd_add h.pages (Nat.dvd_refl _)
    · have := Nat.le_of_dvd hpos hp
      simpa using this
  · rw [if_neg hfull]
    have := h.fits
    exact ⟨done, rest, rfl, h, by omega⟩

theorem Saved.saveDeletes {done rest : List ScEntry} (h : Saved be page done rest sc)
    (hp : 16 ∣ page) (hpos : 0 < page) (e : ScEntry) :
    ∃ done' rest', done' ++ rest' = done ++ rest ++ [e] ∧ rest' ≠ [] ∧
      Saved be page done' rest' (Vmemmap.saveDeletes sc e) := by
  obtain ⟨done', rest', heq, h, hroom⟩ := h.flushFull hp hpos
  refine ⟨done', rest' ++ [e], by rw [← heq, List.append_assoc], by simp, ?_⟩
  unfold Vmemmap.saveDeletes
  generalize sc.flushFull = sc at h
  have hbuf : Holds (pwrite sc.buf sc.bufposition (e.bytes sc.bigendian)) 0
      (entriesBytes be (rest' ++ [e])) := by
    have := @Holds.pwrite_append _ (e.bytes sc.bigendian) 0 _ h.holds
    rw [Nat.zero_add, length_entriesBytes, ← h.bufposition] at this
    rw [entriesBytes_append, ← h.bigendian]
    rw [← h.bigendian] at this
    simpa [entriesBytes] using this
  refine ⟨h.bigendian, h.buflen, ?_, h.file, h.offset, h.filelen, h.fileposition, ?_, hbuf, ?_,
    h.pages⟩
  · simp only [length_pwrite, length_bytes]
    rw [h.length, h.bufposition]
    split <;> omega
  · simp only [List.length_append, List.length_singleton, sizeofScEntry]
    rw [h.bufposition]
    omega
  · rw [List.length_append, List.length_singleton]
    omega

/-- **After all the entries.** -/
theorem Saved.foldl (hp : 16 ∣ page) (hpos : 0 < page) : ∀ (es : List ScEntry)
    {done rest : List ScEntry} {sc : SaveControl}, Saved be page done rest sc →
    (rest = [] → done = []) →
    ∃ done' rest', done' ++ rest' = done ++ rest ++ es ∧ (rest' = [] → done' = []) ∧
      Saved be page done' rest' (es.foldl Vmemmap.saveDeletes sc)
  | [], done, rest, sc, h, hne => ⟨done, rest, by rw [List.append_nil], hne, h⟩
  | e :: es, done, rest, sc, h, _ => by
    obtain ⟨done1, rest1, heq, hne, h1⟩ := h.saveDeletes hp hpos e
    obtain ⟨done2, rest2, heq2, hne2, h2⟩ := Saved.foldl hp hpos es h1 fun hn => absurd hn hne
    exact ⟨done2, rest2, by rw [heq2, heq, List.append_assoc _ [e], List.singleton_append], hne2, h2⟩

/-! ## Reading -/

/-- After `k` entries were read again: what is left of the buffer is what comes next in the file. -/
structure Reading (be : Bool) (page : Nat) (es : List ScEntry) (k : Nat) (sc : SaveControl) :
    Prop where
  bigendian : sc.bigendian = be
  buflen : sc.buflen = page
  length : sc.buf.length = page
  holds : Holds sc.file 0 (entriesBytes be es)
  pages : page ∣ sc.file.length
  filelen : sc.filelen = 16 * es.length
  fileposition : sc.fileposition = 16 * k
  offset : sc.offset = 16 * k + (page - sc.bufposition)
  offset_pages : page ∣ sc.offset
  aligned : 16 ∣ sc.bufposition
  bufposition_le : sc.bufposition ≤ page
  rest : ∀ i, sc.bufposition ≤ i → i < page →
    byteAt sc.buf i = byteAt sc.file (16 * k + (i - sc.bufposition))

theorem Saved.reset {done rest : List ScEntry} (h : Saved be page done rest sc) (hne : rest ≠ [])
    (hp : 16 ∣ page) : Reading be page (done ++ rest) 0 (resetSaveControl sc) := by
  have hpos : sc.bufposition ≠ 0 := by
    have := List.length_pos_iff.2 hne
    rw [h.bufposition]
    omega
  unfold resetSaveControl
  rw [if_neg hpos]
  have hfile : sc.file.pwrite sc.offset sc.buf = sc.file ++ sc.buf := by
    rw [h.offset, pwrite_at_end]
  refine ⟨h.bigendian, h.buflen, h.length, ?_, ?_, ?_, rfl, ?_, Nat.dvd_zero _, ?_, ?_, ?_⟩
  · simp only [SaveControl.writeBuf]
    rw [hfile, entriesBytes_append, ← h.file, holds_append]
    refine ⟨by simp [Holds, pread], ?_⟩
    have := h.holds
    rw [Holds, pread, List.drop_zero] at this
    rw [Holds, pread, Nat.zero_add, List.drop_left, this]
  · simp only [SaveControl.writeBuf]
    rw [hfile, List.length_append, h.length]
    exact Nat.dvd_add h.pages (Nat.dvd_refl _)
  · simp only [List.length_append]
    rw [h.filelen, h.bufposition, h.file, length_entriesBytes]
    omega
  · simp only
    rw [h.buflen]
    omega
  · simp only
    rw [h.buflen]
    exact hp
  · simp only
    rw [h.buflen]
  · simp only
    rw [h.buflen]
    intro i h1 h2
    omega

/-- The entry `k` in the file. -/
theorem holds_entry {f : ByteFile} {base : Nat} : ∀ {es : List ScEntry} {k : Nat} {e : ScEntry},
    Holds f base (entriesBytes be es) → es[k]? = some e → Holds f (base + 16 * k) (e.bytes be)
  | [], _, _, _, hk => by simp at hk
  | e' :: es, 0, e, h, hk => by
    have he : e' = e := by simpa using hk
    rw [entriesBytes, List.flatMap_cons, holds_append, he] at h
    exact h.1
  | e' :: es, k + 1, e, h, hk => by
    rw [entriesBytes, List.flatMap_cons, holds_append, length_bytes] at h
    have := holds_entry h.2 (show es[k]? = some e by simpa using hk)
    rwa [show base + 16 + 16 * k = base + 16 * (k + 1) by omega] at this

/-- Reading the next page. -/
theorem Reading.fill (h : Reading be page es k sc) (hk : k < es.length) :
    ∃ sc', sc.fill = some sc' ∧ Reading be page es k sc' ∧ sc'.bufposition < page := by
  have hle := h.bufposition_le
  have hoff := h.offset
  have hfile : 16 * es.length ≤ sc.file.length := by
    have := h.holds.length_le (by
      intro hc
      have := congrArg List.length hc
      rw [length_entriesBytes, List.length_nil] at this
      omega)
    rwa [Nat.zero_add, length_entriesBytes] at this
  unfold SaveControl.fill
  rw [h.buflen]
  by_cases hu : sc.bufposition = page
  · rw [if_pos hu]
    have hoff : sc.offset = 16 * k := by omega
    -- the file has whole pages, so the page that is begun is there
    have hin : sc.offset + page ≤ sc.file.length := by
      obtain ⟨a, ha⟩ := h.offset_pages
      obtain ⟨b, hb⟩ := h.pages
      have hab : a < b := by
        by_contra hc
        have := Nat.mul_le_mul_left page (show b ≤ a by omega)
        omega
      have := Nat.mul_le_mul_left page (show a + 1 ≤ b by omega)
      rw [Nat.mul_succ] at this
      omega
    have hpos : 0 < page := by
      by_contra hc
      have h0 : page = 0 := by omega
      have := h.pages
      rw [h0, Nat.zero_dvd] at this
      omega
    have hlen : (sc.file.pread sc.offset page).length = page := by
      rw [length_pread]
      omega
    obtain ⟨n, hn⟩ : ∃ n, page = n + 1 := ⟨page - 1, by omega⟩
    have hread : sc.readBuf = (n + 1, { sc with
        buf := pwrite sc.buf 0 (sc.file.pread sc.offset page), offset := sc.offset + page }) := by
      unfold SaveControl.readBuf
      dsimp only
      rw [h.buflen, hlen, ← hn]
    rw [hread]
    refine ⟨_, rfl, ⟨h.bigendian, h.buflen, ?_, h.holds, h.pages, h.filelen, h.fileposition, ?_, ?_,
      Nat.dvd_zero _, Nat.zero_le _, ?_⟩, hpos⟩
    · simp only [length_pwrite, hlen, h.length]
      split <;> omega
    · simp only
      omega
    · exact Nat.dvd_add h.offset_pages (Nat.dvd_refl _)
    · intro i _ hi
      simp only
      rw [byteAt_pwrite, hlen, if_pos (by omega), Nat.sub_zero, getD_pread hi, hoff]
  · rw [if_neg hu]
    exact ⟨sc, rfl, h, by omega⟩

/-- The entry at the place in the buffer is the next one. -/
theorem Reading.entryAt (h : Reading be page es k sc) (hp : 16 ∣ page) {e : ScEntry}
    (he : es[k]? = some e) (hfits : e.Fits) (hroom : sc.bufposition < page) :
    sc.entryAt sc.bufposition = e := by
  have hal := h.aligned
  have hroom : sc.bufposition + 16 ≤ page := by omega
  have hbytes := holds_entry h.holds he
  rw [Nat.zero_add, ScEntry.bytes, holds_append, length_hostBytes] at hbytes
  -- a read of the buffer is the read of the file at the same distance
  have hsame : ∀ d n, d + n ≤ 16 →
      pread sc.buf (sc.bufposition + d) n = pread sc.file (16 * k + d) n := by
    intro d n hd
    have hfile := (holds_entry h.holds he).length_le (by
      intro hc
      have := congrArg List.length hc
      simp at this)
    rw [length_bytes, Nat.zero_add] at hfile
    apply pread_eq_of_bytes
    · rw [h.length]
      omega
    · rw [length_pread]
      omega
    · intro i hi
      rw [h.rest _ (by omega) (by omega), getD_pread hi]
      congr 1
      omega
  unfold SaveControl.entryAt
  rw [← Nat.add_zero sc.bufposition, hsame 0 8 (by omega), Nat.add_zero, Nat.add_zero,
    hsame 8 8 (by omega), h.bigendian]
  have h1 := hbytes.1
  have h2 := hbytes.2
  rw [Holds, length_hostBytes] at h1 h2
  rw [h1, h2, hostNat_hostBytes be hfits.1, hostNat_hostBytes be hfits.2]

/-- **A call** returns the next entry. -/
theorem Reading.getDeletes (h : Reading be page es k sc) (hp : 16 ∣ page) {e : ScEntry}
    (he : es[k]? = some e) (hfits : e.Fits) :
    ∃ sc', Vmemmap.getDeletes sc = (some e, sc') ∧ Reading be page es (k + 1) sc' := by
  have hk : k < es.length := (List.getElem?_eq_some_iff.1 he).1
  obtain ⟨sc', hfill, h', hroom⟩ := h.fill hk
  have hal := h'.aligned
  have hoff := h'.offset
  unfold Vmemmap.getDeletes
  rw [if_neg (by rw [h.fileposition, h.filelen]; omega), hfill]
  dsimp only
  rw [h'.entryAt hp he hfits hroom]
  refine ⟨_, rfl, h'.bigendian, h'.buflen, h'.length, h'.holds, h'.pages, h'.filelen, ?_, ?_,
    h'.offset_pages, ?_, ?_, ?_⟩
  · simp only [sizeofScEntry]
    rw [h'.fileposition]
    omega
  · simp only [sizeofScEntry]
    omega
  · simp only [sizeofScEntry]
    omega
  · simp only [sizeofScEntry]
    omega
  · simp only [sizeofScEntry]
    intro i h1 h2
    rw [h'.rest i (by omega) h2]
    congr 1
    omega

theorem getDeletesCalls_end (h : sc.filelen ≤ sc.fileposition) (n : Nat) :
    getDeletesCalls n sc = List.replicate n none := by
  have hcall : getDeletes sc = (none, sc) := by
    unfold getDeletes
    rw [if_pos h]
  induction n with
  | zero => rfl
  | succ n ih => rw [getDeletesCalls, hcall, ih, List.replicate_succ]

/-- **The calls** from entry `k` on. -/
theorem Reading.getDeletesCalls (hp : 16 ∣ page) (hfits : ∀ e ∈ es, e.Fits) (n : Nat) :
    ∀ (d : Nat) {k : Nat} {sc : SaveControl}, Reading be page es k sc → k + d = es.length →
      Vmemmap.getDeletesCalls (d + n) sc = (es.drop k).map some ++ List.replicate n none := by
  intro d
  induction d with
  | zero =>
    intro k sc h hk
    rw [Nat.zero_add, getDeletesCalls_end (by rw [h.filelen, h.fileposition]; omega),
      List.drop_of_length_le (by omega)]
    rfl
  | succ d ih =>
    intro k sc h hk
    have hlt : k < es.length := by omega
    obtain ⟨sc', hcall, h'⟩ := h.getDeletes hp (List.getElem?_eq_getElem hlt)
      (hfits _ (List.getElem_mem hlt))
    rw [show d + 1 + n = d + n + 1 by omega, Vmemmap.getDeletesCalls, hcall, ih h' (by omega),
      List.drop_eq_getElem_cons hlt]
    rfl

/-- **The queue.** The entries saved come back in order, then FALSE. -/
theorem saved_entries_come_back (be : Bool) {page : Nat} (hp : sizeofScEntry ∣ page)
    (hpos : 0 < page) (es : List ScEntry) (hfits : ∀ e ∈ es, e.Fits) (n : Nat) :
    getDeletesCalls (es.length + n)
        (resetSaveControl (es.foldl saveDeletes (initSaveControl be page))) =
      es.map some ++ List.replicate n none := by
  obtain ⟨done, rest, heq, hne, h⟩ := Saved.foldl hp hpos es (saved_init be page) fun _ => rfl
  rw [List.nil_append, List.nil_append] at heq
  cases rest with
  | nil =>
    -- nothing was saved, and the reset does nothing
    have hes : es = [] := by
      rw [hne rfl] at heq
      exact heq.symm
    subst hes
    rw [List.length_nil, Nat.zero_add]
    exact getDeletesCalls_end (Nat.le_refl _) n
  | cons e rest =>
    rw [Reading.getDeletesCalls hp hfits n es.length (heq ▸ h.reset (by simp) hp) (Nat.zero_add _),
      List.drop_zero]

/-- Three entries with a page of two. -/
theorem saved_entries_come_back_three :
    getDeletesCalls 4 (resetSaveControl (([⟨1, 2⟩, ⟨3, 4⟩, ⟨5, 6⟩] : List ScEntry).foldl saveDeletes
      (initSaveControl false 32))) = [some ⟨1, 2⟩, some ⟨3, 4⟩, some ⟨5, 6⟩, none] :=
  saved_entries_come_back false (by decide) (by decide) [⟨1, 2⟩, ⟨3, 4⟩, ⟨5, 6⟩]
    (by simp [ScEntry.Fits]) 1

end Vmemmap
