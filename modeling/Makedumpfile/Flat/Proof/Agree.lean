import Makedumpfile.Flat.Perl
import Makedumpfile.Flat.Proof.RoundTrip

/-!
# The two rearrangers

`makedumpfile -R` and `makedumpfile-R.pl` on one stream. The C loop reads a record before it tests
its header, the Perl loop tests first: a stream without records and a stream that begins with an
empty record tell them apart. The C counter is an `int`, the script writes a record with one
`syswrite`, and a 32-bit Perl loses the high half of a size (`rearrangers_agree_iff`).
-/

namespace Flat.Perl

open Lib Output ByteFile

/-! ## Headers -/

theorem isBigendian_eq (p : Host) : isBigendian p = false := by
  obtain ⟨wide, be⟩ := p
  cases be <;> rfl

theorem is64bitsSystem_eq (p : Host) : is64bitsSystem p = p.wide := by
  obtain ⟨wide, be⟩ := p
  cases wide <;> cases be <;> decide

theorem read64bits_be (p : Host) {v : Nat} (h : v < 2 ^ 64) (rest : List UInt8) :
    read64bits p ((leBytes 8 v).reverse ++ rest) = some ((v / 2 ^ 32, v % 2 ^ 32), rest) := by
  have hsplit : (leBytes 8 v).reverse = (leBytes 4 (v / 2 ^ 32)).reverse ++ (leBytes 4 v).reverse := by
    rw [← List.reverse_append, show 2 ^ 32 = 256 ^ 4 by decide, ← leBytes_add 4 4 v]
  unfold read64bits
  rw [readBufFromStdin_append (by simp)]
  simp only [isBigendian_eq, Bool.false_eq_true, ↓reduceIte]
  rw [hsplit, List.take_left' (by simp), List.drop_left' (by simp), List.reverse_reverse,
    List.reverse_reverse, leNat_leBytes, leNat_leBytes, show 256 ^ 4 = 2 ^ 32 by decide,
    Nat.mod_eq_of_lt (show v / 2 ^ 32 < 2 ^ 32 by omega)]

/-- The size a Perl of this width takes from a header. -/
def Host.sizeOf (p : Host) (n : Nat) : Nat := if p.wide then n else n % 2 ^ 32

theorem shl_wide {p : Host} (h : p.wide = true) : p.shl 32 = 2 ^ 32 := by
  unfold Host.shl; rw [h]; decide

theorem shl_narrow {p : Host} (h : p.wide = false) : p.shl 32 = 0 := by
  unfold Host.shl; rw [h]; decide

theorem convert_size (p : Host) {n : Nat} (h : n < 2 ^ 63) :
    convert2valuesTo1value p (n / 2 ^ 32) (n % 2 ^ 32) = p.sizeOf n := by
  unfold convert2valuesTo1value Host.sizeOf
  rw [if_pos (by omega)]
  cases hw : p.wide
  · rw [shl_narrow hw]
    simp
  · rw [shl_wide hw]
    simp only [↓reduceIte, Nat.cast_inj]
    omega

theorem bigValue_offset {n : Nat} (h : n < 2 ^ 63) : bigValue (n / 2 ^ 32) (n % 2 ^ 32) = n := by
  unfold bigValue
  rw [if_pos (by omega)]
  simp only [Nat.cast_inj]
  omega

theorem readHeader_dataHeader (p : Host) (bw : Bool) {off n : Nat} (ho : off < 2 ^ 63)
    (hn : n < 2 ^ 63) (rest : List UInt8) :
    readHeader p (dataHeader bw off n ++ rest) = some (((off : Int), (p.sizeOf n : Int)), rest) := by
  have hseek : ∀ r, seekForSystem p ((leBytes 8 off).reverse ++ r) = some ((off : Int), r) := by
    intro r
    unfold seekForSystem
    rw [read64bits_be p (by omega)]
    simp only [is64bitsSystem_eq]
    rw [bigValue_offset ho, convert_size p ho]
    cases hw : p.wide
    · simp
    · simp [Host.sizeOf, hw]
  have hsize : getBufSize p ((leBytes 8 n).reverse ++ rest) = some ((p.sizeOf n : Int), rest) := by
    unfold getBufSize
    rw [read64bits_be p (by omega)]
    simp only [convert_size p hn]
  unfold readHeader
  rw [dataHeader_eq, List.append_assoc, hseek]
  simp only [hsize]

theorem readHeader_end (p : Host) (bw : Bool) (rest : List UInt8) :
    readHeader p (endFlatHeader bw ++ rest) = some ((-1, -1), rest) := by
  have hall : endFlatHeader bw = (leBytes 8 (2 ^ 64 - 1)).reverse ++ (leBytes 8 (2 ^ 64 - 1)).reverse := by
    cases bw <;> rfl
  have hread : ∀ r, read64bits p ((leBytes 8 (2 ^ 64 - 1)).reverse ++ r) =
      some ((2 ^ 32 - 1, 2 ^ 32 - 1), r) := fun r => read64bits_be p (by decide) r
  have hconv : convert2valuesTo1value p (2 ^ 32 - 1) (2 ^ 32 - 1) = -1 := by
    simp [convert2valuesTo1value]
  have hbig : bigValue (2 ^ 32 - 1) (2 ^ 32 - 1) = -1 := by decide
  unfold readHeader seekForSystem getBufSize
  rw [hall, List.append_assoc, hread]
  simp only [hread, hconv, hbig, ite_self]

/-! ## The loop from a header on -/

/-- The loop of the script, entered before a header. -/
def rearrangeFrom (p : Host) (s : List UInt8) (f : ByteFile) : Outcome :=
  match readHeader p s with
  | none => .hangs
  | some (h, rest) => rearrangeRecords p h rest f

/-- What one round does with a header that was read. -/
theorem rearrangeFrom_header {p : Host} {s rest : List UInt8} {h : Int × Int}
    (hr : readHeader p s = some (h, rest)) (f : ByteFile) :
    rearrangeFrom p s f =
      if 0 ≤ h.1 ∧ 0 < h.2 then
        if (p.maxLength : Int) < h.2 then .failed
        else if h.2.toNat ≤ rest.length then
          if maxRwCount < h.2.toNat then .failed
          else rearrangeFrom p (rest.drop h.2.toNat) (f.pwrite h.1.toNat (rest.take h.2.toNat))
        else .hangs
      else if h.1 = -1 ∧ h.2 = -1 then .completed f
      else .failed := by
  rw [rearrangeFrom, hr]
  simp only
  rw [rearrangeRecords]
  by_cases hrec : 0 ≤ h.1 ∧ 0 < h.2
  · rw [if_pos hrec, if_pos hrec]
    by_cases hmax : (p.maxLength : Int) < h.2
    · rw [if_pos hmax, if_pos hmax]
    · rw [if_neg hmax, if_neg hmax]
      by_cases hlen : h.2.toNat ≤ rest.length
      · rw [if_pos hlen]
        split
        · rename_i hb
          simp [readBufFromStdin, hlen] at hb
        · rename_i buf rest' hb
          simp only [readBufFromStdin, hlen, ↓reduceIte, Option.some.injEq, Prod.mk.injEq] at hb
          obtain ⟨rfl, rfl⟩ := hb
          rw [List.length_take, Nat.min_eq_left hlen]
          by_cases hrw : maxRwCount < h.2.toNat
          · rw [if_pos hrw, if_pos (by omega)]
          · rw [if_neg hrw, if_neg (by omega), rearrangeFrom]
            split <;> rename_i hh <;> rw [hh]
      · rw [if_neg hlen]
        split
        · rfl
        · rename_i hb
          simp [readBufFromStdin, hlen] at hb
  · rw [if_neg hrec, if_neg hrec]
    rfl

/-- The bytes from a header on are refused: records that this Perl copies, then a header that is
neither a record nor the end marker, or a record too long for one `syswrite`. -/
inductive Refused (p : Host) : List UInt8 → Prop
  | stop {s rest : List UInt8} {h : Int × Int} (hr : readHeader p s = some (h, rest))
      (hrec : ¬ (0 ≤ h.1 ∧ 0 < h.2)) (hend : ¬ (h.1 = -1 ∧ h.2 = -1)) : Refused p s
  | long {s rest : List UInt8} {h : Int × Int} (hr : readHeader p s = some (h, rest))
      (hrec : 0 ≤ h.1 ∧ 0 < h.2) (hrw : maxRwCount < h.2.toNat)
      (hlen : (p.maxLength : Int) < h.2 ∨ h.2.toNat ≤ rest.length) : Refused p s
  | record {s rest : List UInt8} {h : Int × Int} (hr : readHeader p s = some (h, rest))
      (hrec : 0 ≤ h.1 ∧ 0 < h.2) (hrw : h.2.toNat ≤ maxRwCount) (hlen : h.2.toNat ≤ rest.length)
      (next : Refused p (rest.drop h.2.toNat)) : Refused p s

theorem maxRwCount_lt (p : Host) : maxRwCount < p.maxLength := by
  unfold Host.maxLength maxRwCount
  cases p.wide <;> decide

theorem rearrangeFrom_refused {p : Host} {s : List UInt8} (h : Refused p s) :
    ∀ f, rearrangeFrom p s f = .failed := by
  induction h with
  | stop hr hrec hend =>
    intro f
    rw [rearrangeFrom_header hr, if_neg hrec, if_neg hend]
  | @long _ _ h hr hrec hrw hlen =>
    intro f
    rw [rearrangeFrom_header hr, if_pos hrec, if_pos hrw]
    by_cases hmax : (p.maxLength : Int) < h.2
    · rw [if_pos hmax]
    · rw [if_neg hmax, if_pos (hlen.resolve_left hmax)]
  | record hr hrec hrw hlen next ih =>
    intro f
    have := maxRwCount_lt p
    rw [rearrangeFrom_header hr, if_pos hrec, if_neg (by omega), if_pos hlen, if_neg (by omega), ih]

theorem refused_of_failed {p : Host} : ∀ (n : Nat) (s : List UInt8) (f : ByteFile), s.length = n →
    rearrangeFrom p s f = .failed → Refused p s := by
  intro n
  induction n using Nat.strongRecOn with
  | ind n ih =>
    intro s f hn hf
    cases hr : readHeader p s with
    | none =>
      rw [rearrangeFrom, hr] at hf
      cases hf
    | some hd =>
      obtain ⟨h, rest⟩ := hd
      have hl := readHeader_length hr
      rw [rearrangeFrom_header hr] at hf
      by_cases hrec : 0 ≤ h.1 ∧ 0 < h.2
      · rw [if_pos hrec] at hf
        by_cases hrw : maxRwCount < h.2.toNat
        · refine .long hr hrec hrw ?_
          apply Classical.byContradiction
          intro hno
          obtain ⟨hmax, hlen⟩ := not_or.1 hno
          rw [if_neg hmax, if_neg hlen] at hf
          cases hf
        · have := maxRwCount_lt p
          rw [if_neg (by omega)] at hf
          by_cases hlen : h.2.toNat ≤ rest.length
          · rw [if_pos hlen, if_neg hrw] at hf
            refine .record hr hrec (by omega) hlen (ih (rest.drop h.2.toNat).length ?_ _ _ rfl hf)
            rw [List.length_drop]
            omega
          · rw [if_neg hlen] at hf
            cases hf
      · refine .stop hr hrec fun hend => ?_
        rw [if_neg hrec, if_pos hend] at hf
        cases hf

/-! ## The records of the stream -/

/-- A record that every Perl copies: not empty and written by one `syswrite`. -/
def Plain (w : Call) : Prop := w.buf ≠ [] ∧ w.buf.length ≤ maxRwCount

instance (w : Call) : Decidable (Plain w) := inferInstanceAs (Decidable (_ ∧ _))

/-- The rest of a stream: its records and the end marker. -/
def tailOf (ws : List Call) : List UInt8 := records false ws ++ endFlatHeader false

theorem tailOf_cons (w : Call) (ws : List Call) :
    tailOf (w :: ws) = dataHeader false w.offset w.buf.length ++ (w.buf ++ tailOf ws) :=
  records_cons false w ws _

theorem sizeOf_of_lt (p : Host) {n : Nat} (h : n < 2 ^ 32) : p.sizeOf n = n := by
  unfold Host.sizeOf
  cases p.wide
  · simp only [Bool.false_eq_true, ↓reduceIte]
    exact Nat.mod_eq_of_lt h
  · rfl

theorem rearrangeFrom_plain (p : Host) {w : Call} (hc : w.Coded) (hw : Plain w) (ws : List Call)
    (f : ByteFile) :
    rearrangeFrom p (tailOf (w :: ws)) f = rearrangeFrom p (tailOf ws) (f.pwrite w.offset w.buf) := by
  have hpos : 0 < w.buf.length := List.length_pos_iff.2 hw.1
  have hrw : w.buf.length ≤ 0x7ffff000 := hw.2
  have hmax := maxRwCount_lt p
  rw [tailOf_cons, rearrangeFrom_header (readHeader_dataHeader p false hc.1 hc.2 _),
    sizeOf_of_lt p (by omega), if_pos ⟨by simp, by simpa using hpos⟩, if_neg (by have := hw.2; omega)]
  simp only [Int.toNat_natCast, List.length_append, List.take_left', List.drop_left']
  rw [if_pos (by omega), if_neg (by have := hw.2; omega)]

theorem rearrangeFrom_ok (p : Host) : ∀ (ws : List Call) (f : ByteFile), (∀ w ∈ ws, w.Coded) →
    (∀ w ∈ ws, Plain w) → rearrangeFrom p (tailOf ws) f = .completed (applyCalls ws f)
  | [], f, _, _ => by
    have hr := readHeader_end p false []
    rw [List.append_nil] at hr
    rw [tailOf, records, List.flatMap_nil, List.nil_append, rearrangeFrom_header hr]
    rfl
  | w :: ws, f, hc, hw => by
    rw [rearrangeFrom_plain p (hc w (by simp)) (hw w (by simp)),
      rearrangeFrom_ok p ws _ (fun v hv => hc v (List.mem_cons_of_mem _ hv))
        fun v hv => hw v (List.mem_cons_of_mem _ hv)]
    rfl

/-- What a Perl of 32 bits needs to refuse a stream with a record of 4 GiB or more: it takes the
size modulo `2 ^ 32`, and what follows in the data of the record is not a stream to it either. -/
def NarrowRefuses (p : Host) : List Call → Prop
  | [] => True
  | w :: ws =>
    if w.buf.length < 2 ^ 32 then Plain w → NarrowRefuses p ws
    else 0 < w.buf.length % 2 ^ 32 → w.buf.length % 2 ^ 32 ≤ maxRwCount →
      Refused p (w.buf.drop (w.buf.length % 2 ^ 32) ++ tailOf ws)

theorem narrowRefuses_of_lt (p : Host) : ∀ ws : List Call, (∀ w ∈ ws, w.buf.length < 2 ^ 32) →
    NarrowRefuses p ws
  | [], _ => trivial
  | w :: ws, h => by
    rw [NarrowRefuses, if_pos (h w (by simp))]
    intro _
    exact narrowRefuses_of_lt p ws fun v hv => h v (List.mem_cons_of_mem _ hv)

/-- A first record that is not plain, with its size read correctly, is refused. -/
theorem refused_record {p : Host} {w : Call} (hc : w.Coded) {n : Nat}
    (hn : p.sizeOf w.buf.length = n) (hle : n ≤ w.buf.length)
    (hbad : n = 0 ∨ maxRwCount < n) (ws : List Call) : Refused p (tailOf (w :: ws)) := by
  have hr := readHeader_dataHeader p false hc.1 hc.2 (w.buf ++ tailOf ws)
  rw [tailOf_cons]
  rw [hn] at hr
  rcases hbad with h0 | hrw
  · exact .stop hr (by rintro ⟨-, h⟩; simp only at h; omega) (by rintro ⟨h, -⟩; simp only at h; omega)
  · refine .long hr ⟨by simp, by simp only; omega⟩ (by simpa using hrw) (.inr ?_)
    simp only [Int.toNat_natCast, List.length_append]
    omega

theorem not_plain_size {w : Call} (hw : ¬ Plain w) :
    w.buf.length = 0 ∨ maxRwCount < w.buf.length := by
  rcases Nat.eq_zero_or_pos w.buf.length with h0 | hpos
  · exact .inl h0
  · refine .inr (Nat.lt_of_not_le fun hle => hw ⟨List.length_pos_iff.1 hpos, hle⟩)

/-- A 64-bit Perl refuses a stream with a record that is not plain. -/
theorem refused_wide {p : Host} (hp : p.wide = true) : ∀ (ws : List Call), (∀ w ∈ ws, w.Coded) →
    ¬ (∀ w ∈ ws, Plain w) → ∀ f, rearrangeFrom p (tailOf ws) f = .failed
  | [], _, h, _ => absurd (by simp) h
  | w :: ws, hc, h, f => by
    have hcw := hc w (by simp)
    by_cases hw : Plain w
    · rw [rearrangeFrom_plain p hcw hw]
      refine refused_wide hp ws (fun v hv => hc v (List.mem_cons_of_mem _ hv)) (fun hall => h ?_) _
      rintro v (_ | ⟨_, hv⟩)
      · exact hw
      · exact hall v hv
    · refine rearrangeFrom_refused (refused_record hcw ?_ (Nat.le_refl _) (not_plain_size hw) ws) f
      unfold Host.sizeOf
      rw [hp]
      rfl

/-- A 32-bit Perl refuses it exactly when it does not take the data of a long record for the rest
of the stream. -/
theorem failed_narrow {p : Host} (hp : p.wide = false) : ∀ (ws : List Call) (f : ByteFile),
    (∀ w ∈ ws, w.Coded) → ¬ (∀ w ∈ ws, Plain w) →
    (rearrangeFrom p (tailOf ws) f = .failed ↔ NarrowRefuses p ws)
  | [], _, _, h => absurd (by simp) h
  | w :: ws, f, hc, h => by
    have hcw := hc w (by simp)
    have hsize : p.sizeOf w.buf.length = w.buf.length % 2 ^ 32 := by
      unfold Host.sizeOf
      rw [hp]
      rfl
    rw [NarrowRefuses]
    by_cases hlt : w.buf.length < 2 ^ 32
    · rw [if_pos hlt]
      by_cases hw : Plain w
      · rw [rearrangeFrom_plain p hcw hw, failed_narrow hp ws _
          (fun v hv => hc v (List.mem_cons_of_mem _ hv))]
        · exact ⟨fun h _ => h, fun h => h hw⟩
        · intro hall
          apply h
          rintro v (_ | ⟨_, hv⟩)
          · exact hw
          · exact hall v hv
      · refine ⟨fun _ hw' => absurd hw' hw, fun _ => ?_⟩
        exact rearrangeFrom_refused (refused_record hcw (sizeOf_of_lt p hlt) (Nat.le_refl _)
          (not_plain_size hw) ws) f
    · rw [if_neg hlt]
      have hw : ¬ Plain w := by
        rintro ⟨-, hle⟩
        unfold maxRwCount at hle
        omega
      have hle := Nat.mod_le w.buf.length (2 ^ 32)
      by_cases hbad : w.buf.length % 2 ^ 32 = 0 ∨ maxRwCount < w.buf.length % 2 ^ 32
      · refine ⟨fun _ h0 hm => ?_, fun _ => ?_⟩
        · omega
        · exact rearrangeFrom_refused (refused_record hcw hsize hle hbad ws) f
      · obtain ⟨h0, hm⟩ := not_or.1 hbad
        have hmax := maxRwCount_lt p
        rw [tailOf_cons, rearrangeFrom_header (readHeader_dataHeader p false hcw.1 hcw.2 _), hsize]
        generalize w.buf.length % 2 ^ 32 = n at h0 hm hle
        rw [if_pos ⟨by simp, by simp only; omega⟩, if_neg (by simp only; omega)]
        simp only [Int.toNat_natCast]
        rw [if_pos (by simp only [List.length_append]; omega), if_neg hm,
          List.drop_append_of_le_length hle]
        refine ⟨fun hf _ _ => refused_of_failed _ _ _ rfl hf, fun hn => ?_⟩
        exact rearrangeFrom_refused (hn (by omega) (by omega)) _

/-! ## Both programs on one stream -/

/-- Both succeed with the same file, or both fail. -/
def Same : Option Out → Outcome → Prop
  | some o, .completed f => o.file = f
  | none, .failed => True
  | _, _ => False

/-- The two rearrangers on a start header, the records and the end marker. -/
def Agree (p : Host) (c : Opts) (hdr : List UInt8) (ws : List Call) : Prop :=
  ∀ o : Out, NoFail c o → o.file = [] →
    Same (Flat.rearrangeDumpdata c (hdr ++ tailOf ws) o) (rearrangeDumpdata p (hdr ++ tailOf ws))

theorem rearrangeDumpdata_valid (p : Host) {hdr : List UInt8} (hs : ValidStart hdr)
    (s : List UInt8) : rearrangeDumpdata p (hdr ++ s) = rearrangeFrom p s [] := by
  obtain ⟨hlen, hsig, -⟩ := hs
  have h12 : hdr.take 12 = makedumpfileSignature := by
    rw [show 12 = min 12 13 from rfl, ← List.take_take, hsig]
    rfl
  unfold rearrangeDumpdata readStartFlatHeader
  rw [readBufFromStdin_append hlen]
  simp only [h12, BEq.rfl]
  rfl

theorem copyable_of_plain {ws : List Call} (h : ∀ w ∈ ws, Plain w) : Copyable ws := by
  refine ⟨fun w hw => ?_, fun w hw => (h w (List.mem_of_mem_tail hw)).1⟩
  have := (h w hw).2
  unfold maxRwCount at this
  omega

/-- What the C program makes of a stream with records. -/
theorem rearrangeDumpdata_tailOf (c : Opts) {hdr : List UInt8} (hs : ValidStart hdr)
    {ws : List Call} (hne : ws ≠ []) (hc : ∀ w ∈ ws, w.Coded) {o : Out} (hn : NoFail c o) :
    (Copyable ws → ∃ o', Flat.rearrangeDumpdata c (hdr ++ tailOf ws) o = some o' ∧
      o'.file = applyCalls ws o.file) ∧
    (¬ Copyable ws → Flat.rearrangeDumpdata c (hdr ++ tailOf ws) o = none) := by
  obtain ⟨w, ws, rfl⟩ := List.exists_cons_of_ne_nil hne
  rw [tailOf_cons, rearrangeDumpdata_records false c hs (hc w (by simp))]
  exact ⟨fun h => rearrangeRecords_ok false ws w o hc h hn,
    fun h => rearrangeRecords_fail false ws w o hc h hn⟩

/-- Without a record the C program takes the end marker for one and waits for a next header. -/
theorem rearrangeDumpdata_nil (c : Opts) {hdr : List UInt8} (hs : ValidStart hdr) (o : Out) :
    Flat.rearrangeDumpdata c (hdr ++ tailOf []) o = none := by
  have hend := readFlatDataHeader_end false c.bigendian []
  rw [List.append_nil] at hend
  unfold Flat.rearrangeDumpdata
  rw [readStartFlatHeader_valid c.bigendian hs]
  simp only [tailOf, records, List.flatMap_nil, List.nil_append, hend]
  rw [Flat.rearrangeRecords]
  have hcopy : copyRecord c (-1) (-1) 0 [] o = some ([], o) := by
    rw [copyRecord, dif_neg (by decide)]
  split
  · rfl
  · rename_i hc
    rw [hcopy] at hc
    simp only [Option.some.injEq, Prod.mk.injEq] at hc
    obtain ⟨rfl, rfl⟩ := hc
    rfl

theorem agree_of {p : Host} {c : Opts} {hdr : List UInt8} {ws : List Call} (hs : ValidStart hdr)
    (hc : ∀ w ∈ ws, w.Coded) (hne : ws ≠ []) (hplain : Copyable ws → ∀ w ∈ ws, Plain w)
    (hnarrow : p.wide = false → NarrowRefuses p ws) : Agree p c hdr ws := by
  intro o hn hf
  obtain ⟨hok, hfail⟩ := rearrangeDumpdata_tailOf c hs hne hc hn
  rw [rearrangeDumpdata_valid p hs]
  by_cases hall : ∀ w ∈ ws, Plain w
  · obtain ⟨o', h', hf'⟩ := hok (copyable_of_plain hall)
    rw [h', rearrangeFrom_ok p ws [] hc hall]
    change o'.file = _
    rw [hf', hf]
  · have hperl : rearrangeFrom p (tailOf ws) [] = .failed := by
      cases hw : p.wide
      · exact (failed_narrow hw ws [] hc hall).2 (hnarrow hw)
      · exact refused_wide hw ws hc hall []
    rw [hfail fun h => hall (hplain h), hperl]
    trivial

theorem Agree.ne_nil {p : Host} {c : Opts} {hdr : List UInt8} {ws : List Call} (hs : ValidStart hdr)
    (hn : NoFail c {}) (h : Agree p c hdr ws) : ws ≠ [] := by
  rintro rfl
  have h' := h {} hn rfl
  rw [rearrangeDumpdata_nil c hs, rearrangeDumpdata_valid p hs,
    rearrangeFrom_ok p [] [] (by simp) (by simp)] at h'
  exact h'

/-- A stream the script refuses although the C program takes it. -/
theorem Agree.plain {p : Host} {c : Opts} {hdr : List UInt8} {ws : List Call} (hs : ValidStart hdr)
    (hn : NoFail c {}) (hc : ∀ w ∈ ws, w.Coded) (h : Agree p c hdr ws) (hcopy : Copyable ws) :
    ∀ w ∈ ws, Plain w := by
  apply Classical.byContradiction
  intro hall
  obtain ⟨o', h', -⟩ := (rearrangeDumpdata_tailOf c hs (h.ne_nil hs hn) hc hn).1 hcopy
  have hperl : rearrangeFrom p (tailOf ws) [] = .failed := by
    cases hw : p.wide
    · refine (failed_narrow hw ws [] hc hall).2 (narrowRefuses_of_lt p ws fun w hmem => ?_)
      have := hcopy.1 w hmem
      omega
    · exact refused_wide hw ws hc hall []
  have hsame := h {} hn rfl
  rw [h', rearrangeDumpdata_valid p hs, hperl] at hsame
  exact hsame

theorem Agree.narrow {p : Host} {c : Opts} {hdr : List UInt8} {ws : List Call} (hs : ValidStart hdr)
    (hn : NoFail c {}) (hc : ∀ w ∈ ws, w.Coded) (h : Agree p c hdr ws) (hp : p.wide = false) :
    NarrowRefuses p ws := by
  by_cases hcopy : Copyable ws
  · refine narrowRefuses_of_lt p ws fun w hmem => ?_
    have := hcopy.1 w hmem
    omega
  · have hall : ¬ ∀ w ∈ ws, Plain w := fun hall => hcopy (copyable_of_plain hall)
    have hsame := h {} hn rfl
    rw [(rearrangeDumpdata_tailOf c hs (h.ne_nil hs hn) hc hn).2 hcopy,
      rearrangeDumpdata_valid p hs] at hsame
    refine (failed_narrow hp ws [] hc hall).1 ?_
    cases hr : rearrangeFrom p (tailOf ws) [] with
    | completed f => rw [hr] at hsame; exact hsame.elim
    | failed => rfl
    | hangs => rw [hr] at hsame; exact hsame.elim

/-- **The two rearrangers agree** exactly when there is a record, every record of a stream the C
program takes is neither empty nor longer than one `syswrite`, and a 32-bit Perl does not find a
stream in the data of a record of 4 GiB or more. -/
theorem rearrangers_agree_iff (p : Host) (c : Opts) (hdr : List UInt8) (ws : List Call)
    (hs : ValidStart hdr) (hc : ∀ w ∈ ws, w.offset < 2 ^ 63 ∧ w.buf.length < 2 ^ 63)
    (hl : c.sizeLimit = none ∧ c.flagDryRun = false) :
    Agree p c hdr ws ↔
      ws ≠ [] ∧
      ((∀ w ∈ ws, w.buf.length < 2 ^ 31) ∧ (∀ w ∈ ws.tail, w.buf ≠ []) →
        ∀ w ∈ ws, w.buf ≠ [] ∧ w.buf.length ≤ maxRwCount) ∧
      (p.wide = false → NarrowRefuses p ws) := by
  have hn : NoFail c {} := noFail_init hl
  constructor
  · intro h
    exact ⟨h.ne_nil hs hn, h.plain hs hn hc, h.narrow hs hn hc⟩
  · rintro ⟨hne, hplain, hnarrow⟩
    exact agree_of hs hc hne hplain hnarrow

theorem rearrangers_agree_two_records :
    Agree ⟨false, true⟩ {} (startFlatHeader false) [⟨8, [1, 2]⟩, ⟨0, [3]⟩] := by
  have hsmall : ∀ w ∈ ([⟨8, [1, 2]⟩, ⟨0, [3]⟩] : List Call), w.offset ≤ 8 ∧ w.buf.length ≤ 2 ∧
      w.buf ≠ [] := by decide
  have hiff := rearrangers_agree_iff ⟨false, true⟩ {} (startFlatHeader false)
    [⟨8, [1, 2]⟩, ⟨0, [3]⟩] (validStart_startFlatHeader false)
    (fun w hw => by have := hsmall w hw; omega) ⟨rfl, rfl⟩
  rw [hiff]
  refine ⟨by simp, fun _ w hw => ⟨(hsmall w hw).2.2, ?_⟩, fun _ => ?_⟩
  · have := hsmall w hw
    unfold maxRwCount
    omega
  · refine narrowRefuses_of_lt _ _ fun w hw => ?_
    have := hsmall w hw
    omega

/-- Without a record only the script succeeds; with an empty first record only the C program. -/
theorem rearrangers_differ :
    ¬ Agree ⟨true, false⟩ {} (startFlatHeader false) [] ∧
      ¬ Agree ⟨true, false⟩ {} (startFlatHeader false) [⟨0, []⟩] := by
  have hs := validStart_startFlatHeader false
  have hn : NoFail ({} : Opts) {} := noFail_init ⟨rfl, rfl⟩
  refine ⟨fun h => h.ne_nil hs hn rfl, fun h => ?_⟩
  have hp := h.plain hs hn (by simp [Call.Coded]) (by simp [Copyable]) ⟨0, []⟩ (by simp)
  exact hp.1 rfl

end Flat.Perl
