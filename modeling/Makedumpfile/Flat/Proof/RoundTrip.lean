import Makedumpfile.Flat.Rearrange

/-!
# Flattening and rearranging

`rearrangeDumpdata` on the stream of a run of `write_buffer` calls gives back the file the same
calls produce with `lseek` and `write`, exactly when no record after the first is empty and no
record has 2 GiB or more (`rearrange_flattened_iff`). An empty record after the first one looks
like the end of the records (`rearrangeRecords_fail`); a record of 2 GiB never satisfies the
`int` counter (`copyRecord_huge`).
-/

namespace Flat

open Lib Output ByteFile

/-! ## Headers -/

theorem readBufFromStdin_append {b rest : List UInt8} {n : Nat} (h : b.length = n) :
    readBufFromStdin (b ++ rest) n = some (b, rest) := by
  subst h
  simp [readBufFromStdin]

theorem headerField_be (be : Bool) {v : Nat} (h : v < 2 ^ 63) :
    headerField be (leBytes 8 v).reverse = v := by
  unfold headerField
  rw [hostNat_swap be (by simp), List.reverse_reverse,
    leNat_leBytes_of_lt (Nat.lt_trans h (by decide)), i64_of_lt h]

theorem readFlatDataHeader_dataHeader (bw be : Bool) {off n : Nat} (ho : off < 2 ^ 63)
    (hn : n < 2 ^ 63) (rest : List UInt8) :
    readFlatDataHeader be (dataHeader bw off n ++ rest) = some (((off : Int), (n : Int)), rest) := by
  unfold readFlatDataHeader
  rw [dataHeader_eq, readBufFromStdin_append (by simp)]
  simp only [Option.some.injEq, Prod.mk.injEq, and_true]
  rw [List.take_left' (by simp), List.drop_left' (by simp)]
  exact ⟨headerField_be be ho, headerField_be be hn⟩

theorem readFlatDataHeader_end (bw be : Bool) (rest : List UInt8) :
    readFlatDataHeader be (endFlatHeader bw ++ rest) = some ((-1, -1), rest) := by
  unfold readFlatDataHeader
  rw [readBufFromStdin_append (by simp [endFlatHeader])]
  cases bw <;> cases be <;> rfl

/-- A block that `read_start_flat_header` takes: the signature with its zero, and the type. -/
def ValidStart (hdr : List UInt8) : Prop :=
  hdr.length = maxSizeMdfHeader ∧ hdr.take 13 = makedumpfileSignature ++ [0] ∧
    (hdr.drop 16).take 8 = (leBytes 8 typeFlatHeader).reverse

theorem readStartFlatHeader_valid (be : Bool) {hdr : List UInt8} (h : ValidStart hdr)
    (rest : List UInt8) : readStartFlatHeader be (hdr ++ rest) = some rest := by
  obtain ⟨hlen, hsig, htype⟩ := h
  unfold readStartFlatHeader
  rw [readBufFromStdin_append hlen]
  simp only [htype, headerField_be be (show typeFlatHeader < 2 ^ 63 by decide)]
  rw [if_pos ⟨hsig, trivial⟩]

theorem validStart_startFlatHeader (bw : Bool) : ValidStart (startFlatHeader bw) := by
  refine ⟨?_, ?_, ?_⟩
  · simp only [startFlatHeader, List.length_append, List.length_replicate, length_hostBytes]
    rfl
  · unfold startFlatHeader
    rw [show List.replicate 4 (0 : UInt8) = [0] ++ [0, 0, 0] from rfl]
    simp only [List.append_assoc]
    rw [← List.append_assoc]
    exact List.take_left' rfl
  · have hl : (makedumpfileSignature ++ List.replicate 4 0).length = 16 := rfl
    unfold startFlatHeader versionFlatHeader
    rw [hostBytes_swap, List.append_assoc, List.append_assoc, List.drop_left' hl,
      List.take_left' (by simp)]

/-! ## One record -/

/-- **A record below 2 GiB** is copied to its place. -/
theorem copyRecord_ok {c : Opts} {off bufSize : Nat} (hsz : bufSize < 2 ^ 31) :
    ∀ (n readSize : Nat) (d rest : List UInt8) (o : Out), d.length = n →
      readSize + d.length = bufSize → NoFail c o →
      ∃ o', copyRecord c off bufSize readSize (d ++ rest) o = some (rest, o') ∧
        o'.file = o.file.pwrite (off + readSize) d ∧ NoFail c o' := by
  intro n
  induction n using Nat.strongRecOn with
  | ind n ih =>
    intro readSize d rest o hdn hrs hn
    rw [copyRecord]
    by_cases hlt : readSize < bufSize
    · rw [dif_pos (by omega)]
      set m := tmpReadSize bufSize readSize with hm
      have hm1 : 0 < m := tmpReadSize_pos (by omega)
      have hm2 : m ≤ d.length := by
        rw [hm]; unfold tmpReadSize; split <;> omega
      have hd : d ++ rest = d.take m ++ (d.drop m ++ rest) := by
        rw [← List.append_assoc, List.take_append_drop]
      have hread : readBufFromStdin (d ++ rest) m = some (d.take m, d.drop m ++ rest) := by
        rw [hd, readBufFromStdin_append (by rw [List.length_take]; omega)]
      obtain ⟨o1, hw, hf1, -, hn1⟩ := writeBuffer_file hn (off + readSize) (d.take m)
      have hcast : ((off : Int) + (readSize : Int)).toNat = off + readSize := by omega
      have hnext : int32 ((readSize : Int) + (m : Int)) = ((readSize + m : Nat) : Int) := by
        rw [int32_of_fits (by omega) (by omega)]; rfl
      obtain ⟨o2, h2, hf2, hn2⟩ := ih (d.length - m) (by omega) (readSize + m) (d.drop m) rest o1
        (by simp) (by simp; omega) hn1
      refine ⟨o2, ?_, ?_, hn2⟩
      · split
        · rename_i h; rw [hread] at h; cases h
        · rename_i buf rest' h
          rw [hread] at h
          simp only [Option.some.injEq, Prod.mk.injEq] at h
          obtain ⟨rfl, rfl⟩ := h
          rw [if_neg (by omega), hcast, hw]
          simp only
          rw [hnext]
          exact h2
      · rw [hf2, hf1, ← Nat.add_assoc]
        conv_rhs => rw [← List.take_append_drop m d, pwrite_append]
        rw [List.length_take, Nat.min_eq_left hm2]
    · have hd : d = [] := List.eq_nil_of_length_eq_zero (by omega)
      subst hd
      rw [dif_neg (by omega)]
      exact ⟨o, rfl, by simp, hn⟩

/-- **A record of 2 GiB or more** is never finished: the `int` counter stays below its size until
the stream ends. -/
theorem copyRecord_huge {c : Opts} {off bufSize : Int} (hsz : 2 ^ 31 ≤ bufSize) :
    ∀ (readSize : Int) (stdin : List UInt8) (o : Out), readSize < 2 ^ 31 →
      copyRecord c off bufSize readSize stdin o = none := by
  intro readSize stdin o hrs
  fun_induction copyRecord c off bufSize readSize stdin o with
  | case1 => rfl
  | case2 => rfl
  | case3 => rfl
  | case4 readSize stdin o hlt buf rest hr hoff o' hw ih => exact ih (int32_lt _)
  | case5 readSize stdin o hge => omega

/-! ## The records -/

/-- The records of a run of calls. -/
def records (bw : Bool) (ws : List Call) : List UInt8 :=
  ws.flatMap fun w => dataHeader bw w.offset w.buf.length ++ w.buf

/-- The file a run of calls leaves. -/
def applyCalls (ws : List Call) (f : ByteFile) : ByteFile :=
  ws.foldl (fun f w => f.pwrite w.offset w.buf) f

/-- The offset after the call fits `off_t`. -/
def Call.Fits (w : Call) : Prop := w.offset + w.buf.length < 2 ^ 63

/-- Both fields of the record's header are non-negative 64-bit integers. -/
def Call.Coded (w : Call) : Prop := w.offset < 2 ^ 63 ∧ w.buf.length < 2 ^ 63

theorem Call.Fits.coded {w : Call} (h : w.Fits) : w.Coded := by
  unfold Call.Fits at h
  exact ⟨by omega, by omega⟩

/-- What makes every record come back: below 2 GiB, and none empty but the first. -/
def Copyable (ws : List Call) : Prop :=
  (∀ w ∈ ws, w.buf.length < 2 ^ 31) ∧ ∀ w ∈ ws.tail, w.buf ≠ []

/-- A record below 2 GiB is copied and the next header decides. -/
theorem rearrangeRecords_step {c : Opts} {w : Call} (hlt : w.buf.length < 2 ^ 31)
    (rest : List UInt8) {o : Out} (hn : NoFail c o) :
    ∃ o1, o1.file = o.file.pwrite w.offset w.buf ∧ NoFail c o1 ∧
      rearrangeRecords c (w.offset, w.buf.length) (w.buf ++ rest) o =
        match readFlatDataHeader c.bigendian rest with
        | none => none
        | some (fdh, stdin) =>
          if 0 ≤ fdh.1 ∧ 0 < fdh.2 then rearrangeRecords c fdh stdin o1
          else if fdh.1 = endFlagFlatHeader ∧ fdh.2 = endFlagFlatHeader then some o1
          else none := by
  obtain ⟨o1, h1, hf1, hn1⟩ :=
    @copyRecord_ok c w.offset _ hlt _ 0 w.buf rest o rfl (by simp) hn
  refine ⟨o1, by simpa using hf1, hn1, ?_⟩
  rw [rearrangeRecords]
  split
  · rename_i h
    rw [show (0 : Int) = ((0 : Nat) : Int) from rfl, h1] at h
    cases h
  · rename_i stdin' o' h
    rw [show (0 : Int) = ((0 : Nat) : Int) from rfl, h1] at h
    simp only [Option.some.injEq, Prod.mk.injEq] at h
    obtain ⟨rfl, rfl⟩ := h
    split <;> rename_i h <;> rw [h]

theorem records_cons (bw : Bool) (w : Call) (ws : List Call) (rest : List UInt8) :
    records bw (w :: ws) ++ rest =
      dataHeader bw w.offset w.buf.length ++ (w.buf ++ (records bw ws ++ rest)) := by
  simp [records]

theorem rearrangeRecords_ok {c : Opts} (bw : Bool) : ∀ (ws : List Call) (w : Call) (o : Out),
    (∀ v ∈ w :: ws, v.Coded) → Copyable (w :: ws) → NoFail c o →
    ∃ o', rearrangeRecords c (w.offset, w.buf.length) (w.buf ++ (records bw ws ++ endFlatHeader bw)) o
        = some o' ∧ o'.file = applyCalls (w :: ws) o.file
  | [], w, o, _, hc, hn => by
    obtain ⟨o1, hf1, -, hr⟩ := rearrangeRecords_step (hc.1 w (by simp))
      (records bw [] ++ endFlatHeader bw) hn
    refine ⟨o1, ?_, by simpa [applyCalls] using hf1⟩
    have hend := readFlatDataHeader_end bw c.bigendian []
    rw [List.append_nil] at hend
    rw [hr, records, List.flatMap_nil, List.nil_append, hend]
    rfl
  | v :: ws, w, o, hfit, hc, hn => by
    obtain ⟨o1, hf1, hn1, hr⟩ := rearrangeRecords_step (hc.1 w (by simp))
      (records bw (v :: ws) ++ endFlatHeader bw) hn
    obtain ⟨o2, h2, hf2⟩ := rearrangeRecords_ok bw ws v o1
      (fun u hu => hfit u (List.mem_cons_of_mem _ hu))
      ⟨fun u hu => hc.1 u (List.mem_cons_of_mem _ hu),
        fun u hu => hc.2 u (List.mem_cons_of_mem _ hu)⟩ hn1
    have hv : v.Coded := hfit v (by simp)
    have hpos : 0 < v.buf.length := List.length_pos_iff.2 (hc.2 v (by simp))
    refine ⟨o2, ?_, by rw [hf2, hf1]; rfl⟩
    rw [hr, records_cons, readFlatDataHeader_dataHeader bw c.bigendian hv.1 hv.2]
    simp only
    rw [if_pos ⟨by omega, by omega⟩]
    exact h2

theorem rearrangeRecords_fail {c : Opts} (bw : Bool) : ∀ (ws : List Call) (w : Call) (o : Out),
    (∀ v ∈ w :: ws, v.Coded) → ¬ Copyable (w :: ws) → NoFail c o →
    rearrangeRecords c (w.offset, w.buf.length) (w.buf ++ (records bw ws ++ endFlatHeader bw)) o
      = none := by
  intro ws
  induction ws with
  | nil =>
    intro w o _ hc _
    have hsz : 2 ^ 31 ≤ w.buf.length := by
      apply Nat.le_of_not_lt
      intro hlt
      exact hc ⟨by simpa using hlt, by simp⟩
    rw [rearrangeRecords]
    split
    · rfl
    · rename_i h
      rw [copyRecord_huge (by omega) 0 _ o (by omega)] at h
      cases h
  | cons v ws ih =>
    intro w o hfit hc hn
    rcases Nat.lt_or_ge w.buf.length (2 ^ 31) with hlt | hsz
    · obtain ⟨o1, -, hn1, hr⟩ := rearrangeRecords_step hlt
        (records bw (v :: ws) ++ endFlatHeader bw) hn
      have hv : v.Coded := hfit v (by simp)
      rw [hr, records_cons, readFlatDataHeader_dataHeader bw c.bigendian hv.1 hv.2]
      simp only
      by_cases hpos : 0 < v.buf.length
      · rw [if_pos ⟨by omega, by omega⟩]
        refine ih v o1 (fun u hu => hfit u (List.mem_cons_of_mem _ hu)) (fun hc' => hc ⟨?_, ?_⟩) hn1
        · rintro u (_ | ⟨_, hu⟩)
          · exact hlt
          · exact hc'.1 u hu
        · rintro u (_ | ⟨_, hu⟩)
          · exact List.length_pos_iff.1 hpos
          · exact hc'.2 u hu
      · -- an empty record is taken for the end of the records, but is not the end marker
        rw [if_neg (by omega), if_neg (by unfold endFlagFlatHeader; omega)]
    · rw [rearrangeRecords]
      split
      · rfl
      · rename_i h
        rw [copyRecord_huge (by omega) 0 _ o (by omega)] at h
        cases h

/-! ## The writers -/

theorem writeCalls_file {c : Opts} : ∀ (ws : List Call) (o : Out), NoFail c o →
    ∃ o', writeCalls c .file ws o = (true, o') ∧ o'.file = applyCalls ws o.file
  | [], o, _ => ⟨o, rfl, rfl⟩
  | w :: ws, o, hn => by
    obtain ⟨o1, h1, hf1, -, hn1⟩ := writeBuffer_file hn w.offset w.buf
    obtain ⟨o2, h2, hf2⟩ := writeCalls_file ws o1 hn1
    refine ⟨o2, by rw [writeCalls, h1]; exact h2, by rw [hf2, hf1]; rfl⟩

theorem writeCalls_stdout {c : Opts} : ∀ (ws : List Call) (o : Out), NoFail c o →
    ∃ o', writeCalls c .stdout ws o = (true, o') ∧
      o'.stdout = o.stdout ++ records c.bigendian ws ∧ NoFail c o'
  | [], o, hn => ⟨o, rfl, by simp [records], hn⟩
  | w :: ws, o, hn => by
    obtain ⟨o1, h1, hs1, hn1⟩ := writeBuffer_stdout hn w.offset w.buf
    obtain ⟨o2, h2, hs2, hn2⟩ := writeCalls_stdout ws o1 hn1
    refine ⟨o2, by rw [writeCalls, h1]; exact h2, ?_, hn2⟩
    have := records_cons c.bigendian w ws []
    simp only [List.append_nil] at this
    rw [hs2, hs1, this, List.append_assoc, List.append_assoc]

/-- **The stream** of a run of calls. -/
theorem writeFlattened_ok {c : Opts} (hflat : c.flagFlatten = true) (ws : List Call) {o : Out}
    (hn : NoFail c o) :
    ∃ o', writeFlattened c ws o = (true, o') ∧ o'.stdout = o.stdout ++
      (startFlatHeader c.bigendian ++ (records c.bigendian ws ++ endFlatHeader c.bigendian)) := by
  obtain ⟨o1, h1, -, hs1, -, -, hn1⟩ :=
    writeAndCheckSpace_ok hn .stdout (startFlatHeader c.bigendian)
  obtain ⟨o2, h2, hs2, hn2⟩ := writeCalls_stdout ws o1 hn1
  obtain ⟨o3, h3, -, hs3, -, -, -⟩ := writeAndCheckSpace_ok hn2 .stdout (endFlatHeader c.bigendian)
  refine ⟨o3, ?_, ?_⟩
  · simp only [writeFlattened, writeStartFlatHeader, writeEndFlatHeader, hflat, ↓reduceIte, h1, h2,
      h3]
  · simp only [Out.put] at hs1 hs3
    rw [hs3, hs2, hs1]
    simp [List.append_assoc]

/-! ## The round trip -/

/-- Rearranging the flattened calls succeeds and leaves the file of the calls themselves: `cw` is
the host and the standard output of the writer, `cr` the host and the file of the reader, `cf` a
writer to a regular file. -/
def RoundTrips (cw cr cf : Opts) (ws : List Call) : Prop :=
  ∀ ow og of : Out, NoFail cw ow → NoFail cr og → NoFail cf of → ow.stdout = [] → og.file = [] →
    of.file = [] →
    ∃ o', rearrangeDumpdata cr (writeFlattened cw ws ow).2.stdout og = some o' ∧
      o'.file = (writeCalls cf .file ws of).2.file

/-- `rearrange_dumpdata` on a stream that begins with a record. -/
theorem rearrangeDumpdata_records (bw : Bool) (c : Opts) {hdr : List UInt8} (hs : ValidStart hdr)
    {w : Call} (hfit : w.Coded) (rest : List UInt8) (o : Out) :
    rearrangeDumpdata c (hdr ++ (dataHeader bw w.offset w.buf.length ++ rest)) o =
      rearrangeRecords c (w.offset, w.buf.length) rest o := by
  unfold rearrangeDumpdata
  rw [readStartFlatHeader_valid c.bigendian hs]
  simp only
  rw [readFlatDataHeader_dataHeader bw c.bigendian hfit.1 hfit.2]

theorem roundTrips_of_copyable {cw cr cf : Opts} (hflat : cw.flagFlatten = true) {ws : List Call}
    (hne : ws ≠ []) (hfit : ∀ w ∈ ws, w.Fits) (hc : Copyable ws) : RoundTrips cw cr cf ws := by
  obtain ⟨w, ws, rfl⟩ := List.exists_cons_of_ne_nil hne
  intro ow og of hnw hnr hnf hsw hfr hff
  obtain ⟨o1, h1, hs1⟩ := writeFlattened_ok hflat (w :: ws) hnw
  obtain ⟨o2, h2, hf2⟩ := rearrangeRecords_ok cw.bigendian ws w og
    (fun v hv => (hfit v hv).coded) hc hnr
  obtain ⟨o3, h3, hf3⟩ := writeCalls_file (w :: ws) of hnf
  refine ⟨o2, ?_, ?_⟩
  · rw [h1, hs1, hsw, List.nil_append, records_cons,
      rearrangeDumpdata_records cw.bigendian cr (validStart_startFlatHeader _)
        (hfit w (by simp)).coded]
    exact h2
  · rw [h3, hf3, hf2, hfr, hff]

theorem noFail_init {c : Opts} (h : c.sizeLimit = none ∧ c.flagDryRun = false) : NoFail c {} :=
  ⟨h.1, h.2, by simp⟩

theorem not_roundTrips {cw cr cf : Opts} (hflat : cw.flagFlatten = true)
    (hw : cw.sizeLimit = none ∧ cw.flagDryRun = false)
    (hr : cr.sizeLimit = none ∧ cr.flagDryRun = false)
    (hf : cf.sizeLimit = none ∧ cf.flagDryRun = false) {ws : List Call} (hne : ws ≠ [])
    (hfit : ∀ w ∈ ws, w.Fits) (hc : ¬ Copyable ws) : ¬ RoundTrips cw cr cf ws := by
  obtain ⟨w, ws, rfl⟩ := List.exists_cons_of_ne_nil hne
  intro h
  have hnw := noFail_init hw
  have hnr := noFail_init hr
  obtain ⟨o', h', -⟩ := h {} {} {} hnw hnr (noFail_init hf) rfl rfl rfl
  obtain ⟨o1, h1, hs1⟩ := writeFlattened_ok hflat (w :: ws) hnw
  rw [h1, hs1, List.nil_append, records_cons,
    rearrangeDumpdata_records cw.bigendian cr (validStart_startFlatHeader _)
      (hfit w (by simp)).coded,
    rearrangeRecords_fail cw.bigendian ws w {} (fun v hv => (hfit v hv).coded) hc hnr] at h'
  cases h'

/-- **The flattened format round trip**: for hosts of any byte order, the rearranged file is the
file of the calls exactly when every record is below 2 GiB and only the first may be empty. -/
theorem rearrange_flattened_iff (cw cr cf : Opts) (ws : List Call) (hflat : cw.flagFlatten = true)
    (hw : cw.sizeLimit = none ∧ cw.flagDryRun = false)
    (hr : cr.sizeLimit = none ∧ cr.flagDryRun = false)
    (hf : cf.sizeLimit = none ∧ cf.flagDryRun = false)
    (hne : ws ≠ []) (hfit : ∀ w ∈ ws, w.Fits) :
    RoundTrips cw cr cf ws ↔
      (∀ w ∈ ws, w.buf.length < 2 ^ 31) ∧ ∀ w ∈ ws.tail, w.buf ≠ [] := by
  constructor
  · intro h
    apply Classical.byContradiction
    intro hc
    exact not_roundTrips hflat hw hr hf hne hfit hc h
  · exact roundTrips_of_copyable hflat hne hfit

theorem rearrange_flattened_two_records :
    RoundTrips { flagFlatten := true } { bigendian := true } {} [⟨8, [1, 2]⟩, ⟨0, [3]⟩] :=
  (rearrange_flattened_iff _ _ _ [⟨8, [1, 2]⟩, ⟨0, [3]⟩] rfl ⟨rfl, rfl⟩ ⟨rfl, rfl⟩ ⟨rfl, rfl⟩
    (by simp) (by simp [Call.Fits])).2 (by simp)

/-- An empty `write_buffer` after the first call makes the reader give up. -/
theorem rearrange_flattened_empty_record :
    ¬ RoundTrips { flagFlatten := true } {} {} [⟨0, [1]⟩, ⟨1, []⟩] :=
  not_roundTrips rfl ⟨rfl, rfl⟩ ⟨rfl, rfl⟩ ⟨rfl, rfl⟩ (by simp) (by simp [Call.Fits])
    (by simp [Copyable])

end Flat
