import Mathlib.Algebra.Group.Nat.Defs
import Mathlib.Logic.Function.Basic
import Mathlib.Logic.Relation
import Mathlib.Data.Int.DivMod

/-!
# The parallel page writer

`write_kdump_pages_parallel_cyclic` for a cycle: the threads of `kdump_thread_function_cyclic` produce
pages, and the main thread consumes them in the order of their page frames and writes them. A step of
the system is a step of one thread: an access to a variable that it shares with others, together with
what it then does with its own. The mutexes are variables, too.

Each producer has a ring of `page_flag`s, which tells what it works at, and all of them share an array
of buffers for the compressed data. A page of zeros needs no buffer.

Reading a page and compressing it is one step with any result; what was made is kept in `made`, which
the program does not have. A thread that cannot read a page leaves. The waiting time after which the
consumer gives up is any time.
-/

namespace Parallel

/-- The length of the ring of a producer, `PAGE_FLAG_NUM`. -/
def pageFlagNum : Nat := 20

/-- The number of buffers for each producer, `PAGE_DATA_NUM`. -/
def pageDataNum : Nat := 5

/-- A cycle that is written, and the number of producers. -/
structure Job where
  numThreads : Nat
  startPfn : Nat
  endPfn : Nat
  isDumpable : Nat → Bool

def Job.numBuffers (job : Job) : Nat := pageDataNum * job.numThreads

/-- The loop for the next dumpable page from `pfn` on, or the end. -/
def Job.nextDumpable (job : Job) (pfn : Nat) : Nat :=
  ((List.range' pfn (job.endPfn - pfn)).find? job.isDumpable).getD (max pfn job.endPfn)

/-- `page_flag.ready`. -/
inductive Ready where
  | unused
  | ready
  | filling
  deriving Repr, DecidableEq

/-- `struct page_flag`. -/
structure PageFlag where
  pfn : Nat := 0
  zero : Bool := false
  ready : Ready := .unused
  index : Int := 0
  deriving Repr, DecidableEq

/-- An `int` in a `short`. -/
def toShort (n : Int) : Int := n.bmod (2 ^ 16)

variable {D : Type}

/-- `struct page_data`; `data` is what is written of it, its `size`, `flags` and `buf`. -/
structure PageData (D : Type) where
  used : Bool
  data : D

/-- What a producer does next. -/
inductive ProducerPc (D : Type) where
  /-- Lock `page_data_mutex`. -/
  | lockData
  /-- Look whether the buffer `index` is used. -/
  | probe
  /-- Set `used`, and unlock. -/
  | claim
  /-- Wait until the `page_flag` is not `FLAG_READY`. -/
  | poll
  /-- Lock `current_pfn_mutex`, look for the next page and set `current_pfn`. -/
  | take
  /-- Set `page_flag_buf->pfn`. -/
  | mark (pfn : Nat)
  /-- Set `FLAG_FILLING`, and unlock. -/
  | fill (pfn : Nat)
  /-- `sem_post`. -/
  | post (pfn : Nat)
  /-- At the end of the cycle: set `current_pfn`. -/
  | setEnd
  /-- At the end of the cycle: give the buffer back. -/
  | giveBack
  /-- Read the page, filter it and compress it. -/
  | produce (pfn : Nat)
  /-- Set `page_flag_buf->zero`. -/
  | setZero (pfn : Nat) (page : Option D)
  /-- Fill the buffer. -/
  | copy (pfn : Nat) (data : D)
  /-- Set `page_flag_buf->index`. -/
  | setIndex (pfn : Nat) (data : D)
  /-- Set `FLAG_READY`, and go to the next `page_flag`. -/
  | publish (pfn : Nat) (page : Option D)
  | done
  /-- Not one page was asked for, or the page could not be read. -/
  | left

/-- The variables of a producer; `pos` is its `page_flag_buf`. -/
structure Producer (D : Type) where
  pc : ProducerPc D
  index : Nat
  pos : Nat

/-- What the consumer does next; `current` and `consuming` are its variables of these names. -/
inductive ConsumerPc where
  /-- `sem_wait`. -/
  | wait
  /-- Load `ready` of the thread `i`. -/
  | scan (i current consuming : Nat)
  /-- Read `pfn` of the thread `i`. -/
  | look (i current consuming : Nat)
  /-- Set `FLAG_UNUSED` at a thread that has reached the end, and count it. -/
  | unmark (i current consuming : Nat)
  /-- Load `ready` of the thread with the smallest `pfn`. -/
  | check (current consuming : Nat)
  /-- Read its `pfn` again. -/
  | confirm (current consuming : Nat)
  /-- Read `zero`, and write a page of zeros. -/
  | readZero (consuming : Nat)
  /-- Read `index`. -/
  | readIndex (consuming : Nat)
  /-- Write the page. -/
  | write (consuming : Nat) (index : Int)
  /-- Set `used` to FALSE. -/
  | release (consuming : Nat) (index : Int)
  /-- Set `FLAG_UNUSED`, and go to the next `page_flag`. -/
  | unuse (consuming : Nat)
  | finished
  | failed
  deriving Repr, DecidableEq

/-- The shared variables, and those of the threads. `rings i` is `info->page_flag_buf[i]`. -/
structure State (D : Type) where
  currentPfn : Nat
  sem : Nat := 0
  dataMutex : Option Nat := none
  pfnMutex : Option Nat := none
  flags : Nat → Nat → PageFlag
  buffers : Int → PageData D
  producers : Nat → Producer D
  consumer : ConsumerPc := .wait
  rings : Nat → Nat
  endCount : Nat := 0
  written : List (Option D) := []
  made : List (Nat × Option D) := []

/-! ## The producers -/

/-- The `page_flag` behind one. -/
def nextFlag (pos : Nat) : Nat := (pos + 1) % pageFlagNum

def State.setProducer (s : State D) (i : Nat) (p : Producer D) : State D :=
  { s with producers := Function.update s.producers i p }

def State.setFlag (s : State D) (i pos : Nat) (f : PageFlag) : State D :=
  { s with flags := Function.update s.flags i (Function.update (s.flags i) pos f) }

def State.setBuffer (s : State D) (index : Int) (b : PageData D) : State D :=
  { s with buffers := Function.update s.buffers index b }

/-- A step of the producer `i`; `result` is what comes of a page that is read, `none` when it cannot be
read, and `some none` for a page of zeros. -/
def producerStep (job : Job) (s : State D) (i : Nat) (result : Option (Option D)) :
    Option (State D) :=
  let p := s.producers i
  let f := s.flags i p.pos
  match p.pc with
  | .lockData =>
    if s.dataMutex = none then
      some ({ s with dataMutex := some i }.setProducer i { p with pc := .probe })
    else none
  | .probe =>
    if (s.buffers p.index).used then
      some (s.setProducer i { p with index := (p.index + 1) % job.numBuffers })
    else some (s.setProducer i { p with pc := .claim })
  | .claim =>
    some (({ s with dataMutex := none }.setBuffer p.index
      { s.buffers p.index with used := true }).setProducer i { p with pc := .poll })
  | .poll =>
    if f.ready = .ready then some s else some (s.setProducer i { p with pc := .take })
  | .take =>
    if s.pfnMutex = none then
      let pfn := job.nextDumpable s.currentPfn
      some ({ s with pfnMutex := some i, currentPfn := pfn + 1 }.setProducer i
        { p with pc := .mark pfn })
    else none
  | .mark pfn =>
    some ((s.setFlag i p.pos { f with pfn }).setProducer i { p with pc := .fill pfn })
  | .fill pfn =>
    some (({ s with pfnMutex := none }.setFlag i p.pos { f with ready := .filling }).setProducer i
      { p with pc := .post pfn })
  | .post pfn =>
    some ({ s with sem := s.sem + 1 }.setProducer i
      { p with pc := if job.endPfn ≤ pfn then .setEnd else .produce pfn })
  | .setEnd => some ({ s with currentPfn := job.endPfn }.setProducer i { p with pc := .giveBack })
  | .giveBack =>
    some ((s.setBuffer p.index { s.buffers p.index with used := false }).setProducer i
      { p with pc := .done })
  | .produce pfn =>
    match result with
    | none => some (s.setProducer i { p with pc := .left })
    | some page =>
      some ({ s with made := s.made ++ [(pfn, page)] }.setProducer i { p with pc := .setZero pfn page })
  | .setZero pfn page =>
    some ((s.setFlag i p.pos { f with zero := page.isNone }).setProducer i
      { p with pc :=
          match page with
          | none => .publish pfn none
          | some data => .copy pfn data })
  | .copy pfn data =>
    some ((s.setBuffer p.index { s.buffers p.index with data }).setProducer i
      { p with pc := .setIndex pfn data })
  | .setIndex pfn data =>
    some ((s.setFlag i p.pos { f with index := toShort p.index }).setProducer i
      { p with pc := .publish pfn (some data) })
  | .publish _ page =>
    some ((s.setFlag i p.pos { f with ready := .ready }).setProducer i
      { p with
        pos := nextFlag p.pos
        -- after a page of zeros the buffer is still free
        pc := if page.isNone then .poll else .lockData })
  | .done => none
  | .left => none

/-! ## The consumer -/

/-- A step of the consumer; `fails` is that it gives up waiting or cannot write. -/
def consumerStep (job : Job) (s : State D) (fails : Bool) : Option (State D) :=
  let flag i := s.flags i (s.rings i)
  match s.consumer with
  | .wait =>
    if 0 < s.sem then some { s with sem := s.sem - 1, consumer := .scan 0 job.endPfn 0 } else none
  | .scan i current consuming =>
    if i < job.numThreads then
      if (flag i).ready = .unused then some { s with consumer := .scan (i + 1) current consuming }
      else some { s with consumer := .look i current consuming }
    else if job.numThreads ≤ s.endCount then some { s with consumer := .finished }
    else some { s with consumer := .check current consuming }
  | .look i current consuming =>
    if job.endPfn ≤ (flag i).pfn then some { s with consumer := .unmark i current consuming }
    else if current < (flag i).pfn then some { s with consumer := .scan (i + 1) current consuming }
    else some { s with consumer := .scan (i + 1) (flag i).pfn i }
  | .unmark i current consuming =>
    some { s.setFlag i (s.rings i) { flag i with ready := .unused } with
      endCount := s.endCount + 1, consumer := .scan (i + 1) current consuming }
  | .check current consuming =>
    if (flag consuming).ready = .ready then some { s with consumer := .confirm current consuming }
    else if fails then some { s with consumer := .failed }
    else some { s with consumer := .scan 0 job.endPfn 0 }
  | .confirm current consuming =>
    if current = (flag consuming).pfn then some { s with consumer := .readZero consuming }
    else some { s with consumer := .scan 0 job.endPfn 0 }
  | .readZero consuming =>
    if (flag consuming).zero then
      if fails then some { s with consumer := .failed }
      else some { s with written := s.written ++ [none], consumer := .unuse consuming }
    else some { s with consumer := .readIndex consuming }
  | .readIndex consuming => some { s with consumer := .write consuming (flag consuming).index }
  | .write consuming index =>
    if fails then some { s with consumer := .failed }
    else some { s with
      written := s.written ++ [some (s.buffers index).data], consumer := .release consuming index }
  | .release consuming index =>
    some { s.setBuffer index { s.buffers index with used := false } with
      consumer := .unuse consuming }
  | .unuse consuming =>
    some { s.setFlag consuming (s.rings consuming) { flag consuming with ready := .unused } with
      rings := Function.update s.rings consuming (nextFlag (s.rings consuming)), consumer := .wait }
  | .finished => none
  | .failed => none

/-! ## Runs -/

/-- A step of the system. -/
inductive Action (D : Type) where
  | producer (i : Nat) (result : Option (Option D))
  | consumer (fails : Bool)

def step (job : Job) (s : State D) : Action D → Option (State D)
  | .producer i result => if i < job.numThreads then producerStep job s i result else none
  | .consumer fails => consumerStep job s fails

/-- The state in which the threads start, with the rings and buffers that the last cycle left. -/
def create (job : Job) (flags : Nat → Nat → PageFlag) (rings : Nat → Nat) (data : Int → D) :
    State D where
  currentPfn := job.startPfn
  flags
  buffers := fun index => { used := false, data := data index }
  producers := fun i =>
    { pc := if job.startPfn < job.endPfn then .lockData else .left, index := i, pos := rings i }
  rings

/-- Steps of the threads in the order of a list. -/
def run (job : Job) (s : State D) (actions : List (Action D)) : Option (State D) :=
  actions.foldlM (step job) s

/-- The thread that makes the next step, and whether the step fails where it can. -/
inductive Choice where
  | producer (i : Nat) (fails : Bool)
  | consumer (fails : Bool)
  deriving Repr, DecidableEq

/-- The step of the thread, when `page` tells what comes of each page. -/
def Choice.action (page : Nat → Option D) (s : State D) : Choice → Action D
  | .producer i fails =>
    .producer i
      (match (s.producers i).pc with
      | .produce pfn => if fails then none else some (page pfn)
      | _ => none)
  | .consumer fails => .consumer fails

def runThreads (page : Nat → Option D) (job : Job) (s : State D) (order : List Choice) :
    Option (State D) :=
  order.foldlM (fun s choice => step job s (choice.action page s)) s

/-- The dumpable pages of the cycle in their order. -/
def Job.dumpablePfns (job : Job) : List Nat :=
  (List.range' job.startPfn (job.endPfn - job.startPfn)).filter job.isDumpable

end Parallel
