import Makedumpfile.Dmesg.Render
import Mathlib.Tactic.Common

/-!
# The line that is written

The buffer never overflows: the loop flushes when fewer than `buf_need` bytes are left, and no
character takes more (`putChar_ok`), although a byte from 0x80 on is printed with eight hexadecimal
digits, as a negative `int`: the indentation alone makes `buf_need` large enough. So the pieces are the
line `logLine` wherever they end (`writeLine_eq`), and **the line is rendered right** exactly if the
text is ASCII (`rendering_iff`).
-/

namespace Dmesg

open Lib

/-! ## The lengths -/

theorem length_ascii (s : List Char) : (ascii s).length = s.length := by simp [ascii]

theorem length_padLeft (fill : Char) (width : Nat) (s : List Char) :
    (padLeft fill width s).length = max width s.length := by
  simp only [padLeft, List.length_append, List.length_replicate]
  omega

theorem length_timeStamp {ts : Nat} (h : ts < 2 ^ 64) :
    15 ≤ (timeStamp ts).length ∧ (timeStamp ts).length ≤ 21 := by
  have hnanos : (Nat.toDigits 10 (ts / 1000000000)).length ≤ 11 :=
    (Nat.length_toDigits_le_iff (by decide) (by decide)).2 (by omega)
  have hrem : (Nat.toDigits 10 (ts % 1000000000 / 1000)).length ≤ 6 :=
    (Nat.length_toDigits_le_iff (by decide) (by decide)).2 (by omega)
  simp only [timeStamp, List.length_append, length_padLeft, List.length_cons, List.length_nil]
  omega

theorem length_caller (cid : Nat) : (caller cid).length ≤ 14 := by
  have hid : (Nat.toDigits 10 (cid % 2 ^ 31)).length ≤ 10 :=
    (Nat.length_toDigits_le_iff (by decide) (by decide)).2 (by omega)
  simp only [caller, List.length_append, length_padLeft, List.length_cons, List.length_nil,
    pidCharsDefault]
  omega

/-- A byte is printed with two hexadecimal digits, or with eight if it is not ASCII. -/
theorem length_hex (b : UInt8) : (hex b).length = if b < 0x80 then 2 else 8 := by
  have hall : ∀ n : Fin 256, (hex (UInt8.ofNat n.val)).length =
      if UInt8.ofNat n.val < 0x80 then 2 else 8 := by decide +kernel
  have h := hall ⟨b.toNat, b.toNat_lt⟩
  rwa [UInt8.ofNat_toNat] at h

theorem length_escape (n : Nat) (b : UInt8) : (escape n b).length ≤ max (1 + n) 10 := by
  unfold escape
  split
  · simp only [List.length_cons, length_ascii, List.length_replicate]
    omega
  · split
    · simp only [List.length_cons, List.length_nil]
      omega
    · simp only [length_ascii, List.length_append, List.length_cons, List.length_nil, length_hex]
      split <;> omega

/-! ## The buffer -/

/-- What was written and what is in the buffer. -/
def LineBuf.line (r : LineBuf) : List UInt8 := r.out.flatten ++ r.buf

theorem LineBuf.line_flush (r : LineBuf) : r.flush.line = r.line := by
  simp [LineBuf.line, LineBuf.flush]

theorem LineBuf.store_ok (r : LineBuf) (s : List UInt8) (nul : Nat)
    (h : r.buf.length + s.length + nul ≤ bufsize) :
    ∃ r', r.store s nul = some r' ∧ r'.line = r.line ++ s ∧
      r'.buf.length = r.buf.length + s.length := by
  refine ⟨{ r with buf := r.buf ++ s }, if_pos h, ?_, ?_⟩
  · simp [LineBuf.line]
  · simp

/-- **A character fits**, when it is not longer than the indentation allows. -/
theorem putChar_ok {n : Nat} (h1 : 15 ≤ n) (h2 : n ≤ 35) (r : LineBuf) (b : UInt8) :
    ∃ r', putChar n r b = some r' ∧ r'.line = r.line ++ escape n b ∧ r'.buf.length ≤ 1022 := by
  have hneed : bufNeed n = 2 + n := by
    unfold bufNeed
    omega
  have hlen := length_escape n b
  -- after the flush there is room for the character and a NUL
  obtain ⟨r1, hr1, hline, hroom⟩ : ∃ r1,
      (if r.buf.length ≥ bufsize - bufNeed n then r.flush else r) = r1 ∧ r1.line = r.line ∧
        r1.buf.length + (escape n b).length + 1 ≤ 1023 := by
    unfold bufsize
    by_cases hfull : r.buf.length ≥ 1024 - bufNeed n
    · refine ⟨r.flush, if_pos hfull, r.line_flush, ?_⟩
      simp only [LineBuf.flush, List.length_nil]
      omega
    · exact ⟨r, if_neg hfull, rfl, by omega⟩
  have hstore : ∀ nul ≤ 1, ∃ r', r1.store (escape n b) nul = some r' ∧
      r'.line = r.line ++ escape n b ∧ r'.buf.length ≤ 1022 := by
    intro nul hnul
    obtain ⟨r', h, hl, hb⟩ := LineBuf.store_ok r1 (escape n b) nul
      (by unfold bufsize; omega)
    exact ⟨r', h, by rw [hl, hline], by omega⟩
  unfold putChar
  dsimp only
  rw [hr1]
  unfold escape at hstore ⊢
  split
  case isTrue hnl =>
    rw [if_pos hnl] at hstore
    exact hstore 1 (Nat.le_refl 1)
  case isFalse hnl =>
    rw [if_neg hnl] at hstore
    split
    case isTrue hp =>
      rw [if_pos hp] at hstore
      exact hstore 0 (Nat.zero_le 1)
    case isFalse hp =>
      rw [if_neg hp] at hstore
      exact hstore 1 (Nat.le_refl 1)

theorem putChars_ok {n : Nat} (h1 : 15 ≤ n) (h2 : n ≤ 35) : ∀ (text : List UInt8) {r : LineBuf},
    r.buf.length ≤ 1022 → ∃ r', text.foldlM (putChar n) r = some r' ∧
      r'.line = r.line ++ text.flatMap (escape n) ∧ r'.buf.length ≤ 1022
  | [], r, hr => ⟨r, rfl, by simp, hr⟩
  | b :: text, r, hr => by
    obtain ⟨r1, hput, hline1, hr1⟩ := putChar_ok h1 h2 r b
    obtain ⟨r2, hrest, hline2, hr2⟩ := putChars_ok h1 h2 text hr1
    refine ⟨r2, ?_, ?_, hr2⟩
    · rw [List.foldlM_cons, hput]
      exact hrest
    · rw [hline2, hline1, List.flatMap_cons, List.append_assoc]

/-- The time stamp and the caller. -/
def LineInput.header (i : LineInput) : List UInt8 :=
  ascii (timeStamp i.tsNsec ++ (i.callerId.map caller).getD [])

theorem LineInput.length_header {i : LineInput} (h : i.tsNsec < 2 ^ 64) :
    15 ≤ i.header.length ∧ i.header.length ≤ 35 := by
  have hts := length_timeStamp h
  unfold LineInput.header
  rw [length_ascii, List.length_append]
  cases i.callerId with
  | none =>
    simp only [Option.map_none, Option.getD_none, List.length_nil]
    omega
  | some cid =>
    have := length_caller cid
    simp only [Option.map_some, Option.getD_some]
    omega

/-- The prefix is in the buffer, and nothing is written yet. -/
theorem putPrefix_ok {i : LineInput} (h : i.tsNsec < 2 ^ 64) :
    ∃ r, putPrefix i = some r ∧ r.line = i.header ∧ r.buf.length = i.header.length := by
  have hts := length_timeStamp h
  obtain ⟨r1, h1, hline1, hr1⟩ := LineBuf.store_ok {} (ascii (timeStamp i.tsNsec)) 1
    (by simp only [length_ascii, List.length_nil]; unfold bufsize; omega)
  simp only [length_ascii, List.length_nil, Nat.zero_add] at hr1
  unfold putPrefix LineInput.header
  rw [show ({} : LineBuf).sprintf _ = some r1 from h1, Option.bind_eq_bind, Option.bind_some]
  cases i.callerId with
  | none =>
    refine ⟨r1, rfl, ?_, ?_⟩
    · simpa [LineBuf.line, ascii] using hline1
    · simpa [ascii] using hr1
  | some cid =>
    have hc := length_caller cid
    obtain ⟨r2, h2, hline2, hr2⟩ := LineBuf.store_ok r1 (ascii (caller cid)) 1
      (by rw [length_ascii, hr1]; unfold bufsize; omega)
    refine ⟨r2, h2, ?_, ?_⟩
    · rw [hline2, hline1]
      simp [LineBuf.line, ascii]
    · rw [hr2, hr1, length_ascii, length_ascii]
      simp

/-- **The buffer does not overflow**, and the pieces are the line, wherever they end. -/
theorem writeLine_eq {i : LineInput} (h : i.tsNsec < 2 ^ 64) :
    ∃ out, writeLine i = some out ∧ out.flatten = logLine i.tsNsec i.callerId i.text := by
  have hlen := i.length_header h
  obtain ⟨r2, h2, hline2, hr2⟩ := putPrefix_ok h
  obtain ⟨r3, h3, hline3, hr3⟩ := putChars_ok (n := r2.buf.length) (by omega) (by omega) i.text
    (r := r2) (by omega)
  obtain ⟨r4, h4, hline4, -⟩ := LineBuf.store_ok r3 [0x0a] 0
    (by simp only [List.length_cons, List.length_nil]; unfold bufsize; omega)
  refine ⟨r4.flush.out, ?_, ?_⟩
  · unfold writeLine
    simp only [h2, h3, h4, Option.bind_eq_bind, Option.bind_some]
    rfl
  · have hflush : r4.flush.out.flatten = r4.line := by
      simp [LineBuf.flush, LineBuf.line]
    rw [hflush, hline4, hline3, hline2, hr2]
    rfl

/-! ## What should be written -/

def hexDigit (n : Nat) : UInt8 := UInt8.ofNat (if n < 10 then 0x30 + n else 0x57 + n)

/-- The rendering of a byte behind a prefix of `n` bytes: two hexadecimal digits for what is neither
printable nor space. -/
def renderByte (n : Nat) (b : UInt8) : List UInt8 :=
  if b = 0x0a then 0x0a :: List.replicate n 0x20
  else if isprint b || isspace b then [b]
  else [0x5c, 0x78, hexDigit (b.toNat / 16), hexDigit (b.toNat % 16)]

/-- The rendering of a line. -/
def LineInput.rendering (i : LineInput) : List UInt8 :=
  i.header ++ i.text.flatMap (renderByte i.header.length) ++ [0x0a]

/-- An ASCII byte is printed as it should be. -/
theorem escape_eq {b : UInt8} (n : Nat) (h : b < 0x80) : escape n b = renderByte n b := by
  have hall : ∀ k : Fin 256, UInt8.ofNat k.val < 0x80 →
      ascii (['\\', 'x'] ++ hex (UInt8.ofNat k.val)) =
        [0x5c, 0x78, hexDigit (k.val / 16), hexDigit (k.val % 16)] := by decide +kernel
  have hb := hall ⟨b.toNat, b.toNat_lt⟩
  rw [UInt8.ofNat_toNat] at hb
  unfold escape renderByte
  split
  · simp [ascii]
  · split
    · rfl
    · exact hb h

/-- Other bytes are neither printable nor space, and take ten characters and not four. -/
theorem length_renderByte_lt {b : UInt8} (n : Nat) (h : ¬ b < 0x80) :
    (renderByte n b).length < (escape n b).length := by
  have hall : ∀ k : Fin 256, ¬ UInt8.ofNat k.val < 0x80 → UInt8.ofNat k.val ≠ 0x0a ∧
      (isprint (UInt8.ofNat k.val) || isspace (UInt8.ofNat k.val)) = false := by decide +kernel
  have hb := hall ⟨b.toNat, b.toNat_lt⟩
  rw [UInt8.ofNat_toNat] at hb
  obtain ⟨h1, h2⟩ := hb h
  unfold escape renderByte
  rw [if_neg h1, if_neg h1, h2]
  simp [length_ascii, length_hex, h]

theorem length_renderByte_le (n : Nat) (b : UInt8) :
    (renderByte n b).length ≤ (escape n b).length := by
  by_cases h : b < 0x80
  · rw [escape_eq n h]
  · exact Nat.le_of_lt (length_renderByte_lt n h)

theorem length_render_le (n : Nat) : ∀ text : List UInt8,
    (text.flatMap (renderByte n)).length ≤ (text.flatMap (escape n)).length
  | [] => Nat.le_refl _
  | b :: text => by
    have h1 := length_renderByte_le n b
    have h2 := length_render_le n text
    simp only [List.flatMap_cons, List.length_append]
    omega

/-- A text that is rendered right has no other bytes. -/
theorem ascii_of_render_eq (n : Nat) : ∀ {text : List UInt8},
    text.flatMap (escape n) = text.flatMap (renderByte n) → ∀ b ∈ text, b < 0x80
  | [], _, _, hb => absurd hb List.not_mem_nil
  | a :: text, h, b, hb => by
    have hle := length_render_le n text
    have hlen := congrArg List.length h
    simp only [List.flatMap_cons, List.length_append] at hlen
    have ha : a < 0x80 := by
      apply Classical.byContradiction
      intro hc
      have := length_renderByte_lt n hc
      omega
    cases List.mem_cons.1 hb with
    | inl heq => exact heq ▸ ha
    | inr hmem =>
      rw [List.flatMap_cons, List.flatMap_cons, escape_eq n ha] at h
      exact ascii_of_render_eq n (List.append_cancel_left h) b hmem

theorem logLine_eq_iff (i : LineInput) :
    logLine i.tsNsec i.callerId i.text = i.rendering ↔ ∀ b ∈ i.text, b < 0x80 := by
  have hline : logLine i.tsNsec i.callerId i.text =
      i.header ++ i.text.flatMap (escape i.header.length) ++ [0x0a] := rfl
  rw [hline, LineInput.rendering, List.append_left_inj, List.append_right_inj]
  refine ⟨ascii_of_render_eq _, fun h => ?_⟩
  rw [List.flatMap_def, List.flatMap_def]
  exact congrArg List.flatten (List.map_congr_left fun b hb => escape_eq _ (h b hb))

/-! ## The two functions -/

theorem logEntryInput_tsNsec_lt (g : Log) (p : Nat) : (logEntryInput g p).tsNsec < 2 ^ 64 := by
  have h := hostNat_lt g.bigendian (ByteFile.pread g.buf (p + g.tsNsec) 8)
  have hlen : (ByteFile.pread g.buf (p + g.tsNsec) 8).length ≤ 8 := by
    rw [ByteFile.length_pread]
    omega
  have hpow := Nat.pow_le_pow_right (show 0 < 256 by decide) hlen
  exact Nat.lt_of_lt_of_le h hpow

/-- What `dump_log_entry` writes. -/
theorem dumpLogEntryPieces_eq (g : Log) (p : Nat) :
    ∃ out, dumpLogEntryPieces g p = some out ∧ out.flatten = dumpLogEntry g p :=
  writeLine_eq (logEntryInput_tsNsec_lt g p)

theorem recordInput_tsNsec_lt {m : PrbMap} {id : Nat} {i : LineInput} (h : recordInput m id = some i) :
    i.tsNsec < 2 ^ 64 := by
  obtain ⟨span, -, rfl⟩ := Option.map_eq_some_iff.1 h
  have h := hostNat_lt m.bigendian (ByteFile.pread m.infos (m.info id + m.tsNsec) 8)
  have hlen : (ByteFile.pread m.infos (m.info id + m.tsNsec) 8).length ≤ 8 := by
    rw [ByteFile.length_pread]
    omega
  have hpow := Nat.pow_le_pow_right (show 0 < 256 by decide) hlen
  exact Nat.lt_of_lt_of_le h hpow

/-- What `dump_record` writes. -/
theorem dumpRecordPieces_eq (m : PrbMap) (id : Nat) :
    ∃ out, dumpRecordPieces m id = some out ∧ out.flatten = dumpRecord m id := by
  unfold dumpRecordPieces dumpRecord
  cases hspan : textSpan m id with
  | none => exact ⟨[], by simp [recordInput, hspan], rfl⟩
  | some span =>
    have hin : recordInput m id = some
        { tsNsec := m.read m.infos (m.info id + m.tsNsec) 8
          callerId := m.callerId.map fun o => m.read m.infos (m.info id + o) 4
          text := ByteFile.pread m.textData span.1 span.2 } := by
      simp [recordInput, hspan]
    rw [hin]
    exact writeLine_eq (recordInput_tsNsec_lt hin)

/-- What both functions promise for the same line: the buffer is not exceeded, they write the same
bytes, and these are the rendering of the line. -/
structure Renders (g : Log) (p : Nat) (m : PrbMap) (id : Nat) : Prop where
  fits : ∃ out out', dumpLogEntryPieces g p = some out ∧ dumpRecordPieces m id = some out' ∧
    out.flatten = out'.flatten
  rendered : ∀ out, dumpLogEntryPieces g p = some out →
    out.flatten = (logEntryInput g p).rendering

/-- **A line is rendered right**, by both functions, exactly if its text is ASCII. -/
theorem rendering_iff (g : Log) (p : Nat) (m : PrbMap) (id : Nat)
    (hsame : recordInput m id = some (logEntryInput g p)) :
    Renders g p m id ↔ ∀ b ∈ (logEntryInput g p).text, b < 0x80 := by
  obtain ⟨out, hout, hflat⟩ := dumpLogEntryPieces_eq g p
  have hrecord : dumpRecordPieces m id = some out := by
    unfold dumpRecordPieces
    rw [hsame]
    exact hout
  rw [← logLine_eq_iff]
  constructor
  · intro h
    exact hflat.symm.trans (h.rendered out hout)
  · intro h
    refine ⟨⟨out, out, hout, hrecord, rfl⟩, fun out' hout' => ?_⟩
    cases hout.symm.trans hout'
    exact hflat.trans h

/-! ## A text of one byte -/

/-- A record of the log buffer. -/
def oneByteLog (b : UInt8) : Log where
  buf := leBytes 8 1500000000 ++ leBytes 2 17 ++ leBytes 2 1 ++ List.replicate 4 0 ++ [b]
  size := 16
  tsNsec := 0
  len := 8
  textLen := 10

/-- The same line in the lockless ring. -/
def oneByteRing (b : UInt8) : PrbMap where
  countBits := 0
  countBits_le := one_entry_bits
  descs := leBytes 8 (2 ^ 62) ++ leBytes 8 0 ++ leBytes 8 16
  descSize := 24
  stateVar := 0
  lposBegin := 8
  lposNext := 16
  infos := leBytes 8 1500000000 ++ leBytes 2 1
  infoSize := 10
  tsNsec := 0
  textLen := 8
  sizeBits := 5
  sizeBits_le := by decide
  textData := List.replicate 8 0 ++ [b] ++ List.replicate 7 0

theorem renders_letter : Renders (oneByteLog 0x41) 0 (oneByteRing 0x41) 0 :=
  (rendering_iff _ _ _ _ (by decide +kernel)).2 (by decide +kernel)

/-- A letter with an accent, in Latin-1. -/
theorem not_renders_accent : ¬ Renders (oneByteLog 0xe9) 0 (oneByteRing 0xe9) 0 := by
  intro h
  have hout : dumpLogEntryPieces (oneByteLog 0xe9) 0 =
      some [ascii "[    1.500000] \\xffffffe9\n".toList] := by decide +kernel
  exact absurd (h.rendered _ hout) (by decide +kernel)

end Dmesg
