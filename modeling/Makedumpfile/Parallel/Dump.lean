import Makedumpfile.Parallel.Writer
import Makedumpfile.Kdump.Write

/-!
# Writing a file with threads

`write_kdump_pages_and_bitmap_cyclic` with `info->num_threads`. In every cycle the threads run in some
order, which may depend on anything, and the consumer puts what it takes into the two caches, without
`write_kdump_page`. The rings and the buffers are those of the last cycle.
-/

namespace Parallel

open Lib Output Kdump

/-- `flags` and the bytes of a page. -/
abbrev PageBytes := Nat × List UInt8

/-- What a producer makes of a page. -/
def makePage (i : Info) (pfn : Nat) : Option PageBytes :=
  if i.excludeZero ∧ isZeroPage i.pageSize (i.page pfn) then none
  else some (compressPage i.libs i.flagCompress i.pageSize (i.page pfn))

/-- What the consumer does with a page. -/
def consumePage (i : Info) (pdZero : PageDesc) : Option PageBytes → Writer → Bool × Writer
  | none, w =>
    let (ok, cdHeader, out) := writeCache i.opts w.cdHeader (pdZero.encode i.opts.bigendian) w.out
    (ok, { w with cdHeader, out })
  | some (flags, data), w =>
    let pd : PageDesc := { offset := w.offsetData, size := data.length, flags }
    match writeCache i.opts w.cdHeader (pd.encode i.opts.bigendian) w.out with
    | (false, cdHeader, out) =>
      (false, { w with cdHeader, out, offsetData := w.offsetData + data.length })
    | (true, cdHeader, out) =>
      let (ok, cdPage, out) := writeCache i.opts w.cdPage data out
      (ok, { w with cdHeader, cdPage, out, offsetData := w.offsetData + data.length })

/-- What outlives a cycle. -/
structure ParallelWriter where
  writer : Writer
  flags : Nat → Nat → PageFlag
  rings : Nat → Nat
  data : Int → PageBytes

/-- The threads' part of a cycle. -/
def jobOf (i : Info) (numThreads : Nat) (cycle : PfnCycle) : Job where
  numThreads
  startPfn := cycle.startPfn
  endPfn := cycle.endPfn
  isDumpable := i.bitmap2

/-- The threads run in the order `order`; an order in which a thread would step that cannot is none. -/
def writeKdumpPagesParallelCyclic (i : Info) (numThreads : Nat) (pdZero : PageDesc)
    (order : List Choice) (cycle : PfnCycle) (p : ParallelWriter) : Bool × ParallelWriter :=
  let job := jobOf i numThreads cycle
  match runThreads (makePage i) job (create job p.flags p.rings p.data) order with
  | none => (false, p)
  | some s =>
    let (ok, writer) := tryEach (consumePage i pdZero) s.written p.writer
    (ok && s.consumer = .finished,
      { writer, flags := s.flags, rings := s.rings, data := fun b => (s.buffers b).data })

def writeCycleParallel (i : Info) (numThreads : Nat) (orders : PfnCycle → ParallelWriter → List Choice)
    (cycle : PfnCycle) (p : ParallelWriter) : Bool × ParallelWriter :=
  match writeKdumpBitmap2Buffer i cycle p.writer with
  | (false, writer) => (false, { p with writer })
  | (true, writer) =>
    writeKdumpPagesParallelCyclic i numThreads i.pdZero (orders cycle { p with writer }) cycle
      { p with writer }

/-- The rings as `initial_for_parallel` makes them, and buffers with any content. -/
def initialParallel (writer : Writer) (data : Int → PageBytes) : ParallelWriter where
  writer
  flags := fun _ _ => {}
  rings := fun _ => 0
  data

def writeKdumpPagesAndBitmapParallel (i : Info) (numThreads : Nat) (orders : PfnCycle → ParallelWriter → List Choice)
    (data : Int → PageBytes) (o : Out) : Bool × Out :=
  match writeZeroPage i (initialWriter i o) with
  | (false, w) => (false, w.out)
  | (true, w) =>
    match tryEach (writeKdumpBitmap1Buffer i w.offsetBitmap1) i.cycles w.out with
    | (false, out) => (false, out)
    | (true, out) =>
      match tryEach (writeCycleParallel i numThreads orders) i.cycles
          (initialParallel { w with out } data) with
      | (false, p) => (false, p.writer.out)
      | (true, p) =>
        let (ok, w) := writeRemainder i p.writer
        (ok, w.out)

def writeoutDumpfileParallel (i : Info) (numThreads : Nat) (orders : PfnCycle → ParallelWriter → List Choice)
    (data : Int → PageBytes) (o : Out) : Bool × Out :=
  match writeKdumpHeader i o with
  | (false, o) => (false, o)
  | (true, o) => writeKdumpPagesAndBitmapParallel i numThreads orders data o

end Parallel
