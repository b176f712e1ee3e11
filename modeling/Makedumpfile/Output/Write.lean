import Makedumpfile.Lib.ByteFile
import Makedumpfile.Lib.Endian

/-!
# Writing the dump file

`write_and_check_space` and `write_buffer` over an output that is a regular file or the standard
output (flattened format). What the kernel answers to each `write(2)` is data: `Output.sys` lists
the results of the coming calls, and once the list is used up every call takes all it is given. So
a full device, an interrupted call and a partial write can happen at every byte.
-/

namespace Output

open Lib

/-- The result of one `write(2)` call. -/
inductive WriteRet
  | wrote (n : Nat)
  | zero
  | eintr
  | enospc
  | eio
  deriving Repr, DecidableEq

/-- The result leaves the caller able to go on writing. -/
def WriteRet.good : WriteRet → Bool
  | .wrote _ => true
  | .eintr => true
  | _ => false

/-- `fd == STDOUT_FILENO`, or a regular file. -/
inductive Fd
  | stdout
  | file
  deriving Repr, DecidableEq

/-- The options the writers look at. `sizeLimit` is `info->size_limit` (`none` is -1). -/
structure Opts where
  bigendian : Bool := false
  sizeLimit : Option Nat := none
  flagDryRun : Bool := false
  flagFlatten : Bool := false
  deriving Repr, DecidableEq

/-- The output and the globals `write_bytes` and `info->flag_nospace`. -/
structure Out where
  file : ByteFile := []
  pos : Nat := 0
  stdout : List UInt8 := []
  writeBytes : Nat := 0
  flagNospace : Bool := false
  sys : List WriteRet := []
  deriving Repr, DecidableEq

/-- The bytes of `b` accepted by the descriptor. A regular file takes them at its position. -/
def Out.put (o : Out) (fd : Fd) (b : List UInt8) : Out :=
  match fd with
  | .stdout => { o with stdout := o.stdout ++ b }
  | .file => { o with file := o.file.pwrite o.pos b, pos := o.pos + b.length }

/-- The loop of `write_and_check_space`: how many of the `n` bytes left are accepted, the results
of the calls after it, and the `flag_nospace` an error set. -/
def writeLoop : List WriteRet → Nat → Nat × List WriteRet × Option Bool
  | sys, 0 => (0, sys, none)
  | [], n => (n, [], none)
  | .wrote k :: sys, n =>
    let m := min (max k 1) n
    let r := writeLoop sys (n - m)
    (m + r.1, r.2)
  | .eintr :: sys, n => writeLoop sys n
  | .zero :: sys, _ => (0, sys, none)
  | .enospc :: sys, _ => (0, sys, some true)
  | .eio :: sys, _ => (0, sys, some false)

def writeAndCheckSpace (c : Opts) (fd : Fd) (buf : List UInt8) (o : Out) : Bool × Out :=
  let pos := if fd = .stdout ∨ c.flagDryRun = true then o.writeBytes else o.pos
  -- the size limit cuts the write and already reports the lack of space
  let (limit, nospace) :=
    match c.sizeLimit with
    | some l => if pos + buf.length > l then (l - pos, true) else (buf.length, o.flagNospace)
    | none => (buf.length, o.flagNospace)
  let r := if c.flagDryRun then (limit, o.sys, none) else writeLoop o.sys limit
  let done := r.1
  let o := if c.flagDryRun then o else o.put fd (buf.take done)
  (done == buf.length,
    { o with writeBytes := o.writeBytes + done, sys := r.2.1,
             flagNospace := r.2.2.getD nospace })

/-- `struct makedumpfile_data_header`, in big-endian order on every host. -/
def dataHeader (bigendian : Bool) (offset bufSize : Nat) : List UInt8 :=
  hostBytes bigendian 8 (if bigendian then offset else bswap64 offset) ++
    hostBytes bigendian 8 (if bigendian then bufSize else bswap64 bufSize)

def writeBuffer (c : Opts) (fd : Fd) (offset : Nat) (buf : List UInt8) (o : Out) : Bool × Out :=
  match fd with
  | .stdout =>
    -- a header of the flattened format instead of `lseek`
    match writeAndCheckSpace c fd (dataHeader c.bigendian offset buf.length) o with
    | (false, o) => (false, o)
    | (true, o) => writeAndCheckSpace c fd buf o
  | .file =>
    writeAndCheckSpace c fd buf (if c.flagDryRun then o else { o with pos := offset })

/-! ## A `write` that does not fail -/

/-- No size limit, no dry run, and no call that fails. -/
structure NoFail (c : Opts) (o : Out) : Prop where
  limit : c.sizeLimit = none
  dry : c.flagDryRun = false
  sys : ∀ r ∈ o.sys, r.good = true

theorem writeLoop_good : ∀ (sys : List WriteRet) (n : Nat), (∀ r ∈ sys, r.good = true) →
    (writeLoop sys n).1 = n ∧ (writeLoop sys n).2.2 = none ∧
      ∀ r ∈ (writeLoop sys n).2.1, r.good = true
  | sys, 0, h => by simpa [writeLoop] using h
  | [], n + 1, _ => by simp [writeLoop]
  | .wrote k :: sys, n + 1, h => by
    obtain ⟨h1, h2, h3⟩ := writeLoop_good sys (n + 1 - min (max k 1) (n + 1))
      fun r hr => h r (List.mem_cons_of_mem _ hr)
    simp only [writeLoop, h1, h2, true_and]
    exact ⟨by omega, h3⟩
  | .eintr :: sys, n + 1, h => by
    simpa [writeLoop] using writeLoop_good sys (n + 1) fun r hr => h r (List.mem_cons_of_mem _ hr)
  | .zero :: _, _ + 1, h => by simp [WriteRet.good] at h
  | .enospc :: _, _ + 1, h => by simp [WriteRet.good] at h
  | .eio :: _, _ + 1, h => by simp [WriteRet.good] at h

theorem writeAndCheckSpace_ok {c : Opts} {o : Out} (hn : NoFail c o) (fd : Fd) (buf : List UInt8) :
    ∃ o', writeAndCheckSpace c fd buf o = (true, o') ∧ o'.file = (o.put fd buf).file ∧
      o'.stdout = (o.put fd buf).stdout ∧ o'.pos = (o.put fd buf).pos ∧
      o'.flagNospace = o.flagNospace ∧ NoFail c o' := by
  obtain ⟨h1, h2, h3⟩ := writeLoop_good o.sys buf.length hn.sys
  have e : writeAndCheckSpace c fd buf o =
      (true, { o.put fd buf with
        writeBytes := (o.put fd buf).writeBytes + buf.length
        sys := (writeLoop o.sys buf.length).2.1
        flagNospace := o.flagNospace }) := by
    unfold writeAndCheckSpace
    simp [hn.limit, hn.dry, h1, h2]
  exact ⟨_, e, rfl, rfl, rfl, rfl, hn.limit, hn.dry, h3⟩

/-- **A write to a regular file that does not fail** is `pwrite`. -/
theorem writeBuffer_file {c : Opts} {o : Out} (hn : NoFail c o) (off : Nat) (buf : List UInt8) :
    ∃ o', writeBuffer c .file off buf o = (true, o') ∧ o'.file = o.file.pwrite off buf ∧
      o'.flagNospace = o.flagNospace ∧ NoFail c o' := by
  have hn' : NoFail c { o with pos := off } := ⟨hn.limit, hn.dry, hn.sys⟩
  obtain ⟨o', h, hf, -, -, hs, hn''⟩ := writeAndCheckSpace_ok hn' .file buf
  refine ⟨o', ?_, hf, hs, hn''⟩
  simpa [writeBuffer, hn.dry] using h

theorem dataHeader_eq (be : Bool) (offset n : Nat) :
    dataHeader be offset n = (leBytes 8 offset).reverse ++ (leBytes 8 n).reverse := by
  unfold dataHeader
  rw [hostBytes_swap, hostBytes_swap]

/-- **A write to the standard output that does not fail** is the record's header and its data. -/
theorem writeBuffer_stdout {c : Opts} {o : Out} (hn : NoFail c o) (off : Nat) (buf : List UInt8) :
    ∃ o', writeBuffer c .stdout off buf o = (true, o') ∧
      o'.stdout = o.stdout ++ (dataHeader c.bigendian off buf.length ++ buf) ∧ NoFail c o' := by
  obtain ⟨o1, h1, -, hs1, -, -, hn1⟩ :=
    writeAndCheckSpace_ok hn .stdout (dataHeader c.bigendian off buf.length)
  obtain ⟨o2, h2, -, hs2, -, -, hn2⟩ := writeAndCheckSpace_ok hn1 .stdout buf
  refine ⟨o2, by simp only [writeBuffer, h1, h2], ?_, hn2⟩
  rw [hs2]
  simp only [Out.put] at hs1 ⊢
  rw [hs1, List.append_assoc]

end Output
