import Makedumpfile.Parallel.Writer
import Makedumpfile.Lib.Ring
import Mathlib.Algebra.BigOperators.Group.Finset.Basic
import Mathlib.Data.Finset.Range

/-!
# The order of the pages

The invariant of the system. A producer's ring holds the pages it has taken and the consumer has not
done with, behind them the mark that the producer has reached the end. Over all rings, the pages are
in `pending` in the order in which they were taken; the consumer finds the first of them, since
there is one whenever it looks: the semaphore counts the pages that are pending and the producers
that have reached the end, and after the first of these no page comes any more.
-/

namespace Parallel

open Lib

variable {D : Type} {job : Job} {s s' : State D} {i : Nat}

/-! ## The next page -/

/-- The dumpable pages below `pfn`. -/
def Job.pagesBelow (job : Job) (pfn : Nat) : List Nat :=
  (List.range' job.startPfn (min pfn job.endPfn - job.startPfn)).filter job.isDumpable

theorem pagesBelow_end (h : job.endPfn ≤ i) : job.pagesBelow i = job.dumpablePfns := by
  rw [Job.pagesBelow, Nat.min_eq_right h, Job.dumpablePfns]

theorem pagesBelow_start : job.pagesBelow job.startPfn = [] := by
  have : min job.startPfn job.endPfn - job.startPfn = 0 := by omega
  rw [Job.pagesBelow, this]
  rfl

theorem mem_pagesBelow {pfn p : Nat} (h : p ∈ job.pagesBelow pfn) : p < pfn ∧ p < job.endPfn := by
  have := List.mem_range'_1.mp (List.mem_of_mem_filter h)
  omega

theorem pagesBelow_sorted (job : Job) (pfn : Nat) : (job.pagesBelow pfn).Pairwise (· < ·) :=
  List.Pairwise.filter _ (List.pairwise_lt_range' _)

theorem le_nextDumpable (pfn : Nat) : pfn ≤ job.nextDumpable pfn := by
  unfold Job.nextDumpable
  cases h : (List.range' pfn (job.endPfn - pfn)).find? job.isDumpable with
  | none => exact Nat.le_max_left _ _
  | some p => exact (List.mem_range'_1.mp (List.mem_of_find?_eq_some h)).1

/-- The next page comes behind the ones below, or there is none. -/
theorem pagesBelow_next {pfn : Nat} (hs : job.startPfn ≤ pfn) :
    job.pagesBelow (job.nextDumpable pfn + 1) =
      job.pagesBelow pfn ++
        if job.nextDumpable pfn < job.endPfn then [job.nextDumpable pfn] else [] := by
  unfold Job.nextDumpable
  cases h : (List.range' pfn (job.endPfn - pfn)).find? job.isDumpable with
  | none =>
    have hle : ¬ max pfn job.endPfn < job.endPfn := by omega
    rw [Option.getD_none, if_neg hle, List.append_nil]
    by_cases hp : job.endPfn ≤ pfn
    · rw [pagesBelow_end hp, pagesBelow_end (by omega)]
    · -- no page from `pfn` to the end is dumpable
      have hlen : min (max pfn job.endPfn + 1) job.endPfn - job.startPfn =
          (min pfn job.endPfn - job.startPfn) + (job.endPfn - pfn) := by omega
      have hpfn : job.startPfn + (min pfn job.endPfn - job.startPfn) = pfn := by omega
      rw [Job.pagesBelow, hlen, ← List.range'_append_1, hpfn, List.filter_append]
      rw [List.filter_eq_nil_iff.mpr (List.find?_eq_none.mp h), List.append_nil]
      rfl
  | some p =>
    obtain ⟨hp, hmem, hbefore⟩ := List.find?_range'_eq_some.mp h
    have hrange := List.mem_range'_1.mp hmem
    rw [Option.getD_some, if_pos (by omega)]
    have hlen : min (p + 1) job.endPfn - job.startPfn =
        (min pfn job.endPfn - job.startPfn) + ((p - pfn) + 1) := by omega
    have hpfn : job.startPfn + (min pfn job.endPfn - job.startPfn) = pfn := by omega
    rw [Job.pagesBelow, hlen, ← List.range'_append_1, hpfn, List.filter_append, ←
      List.range'_append_1,
      List.filter_append]
    have hnone : (List.range' pfn (p - pfn)).filter job.isDumpable = [] := by
      refine List.filter_eq_nil_iff.mpr fun q hq => ?_
      have hq := List.mem_range'_1.mp hq
      simpa using hbefore q hq.1 (by omega)
    have hone : List.range' (pfn + (p - pfn)) 1 = [p] := by
      rw [Nat.add_sub_cancel' hrange.1]
      rfl
    rw [hnone, hone, List.nil_append, List.filter_cons_of_pos hp]
    rfl

/-! ## The rings -/

/-- What a cell of a ring holds: a page that is worked at, one that is ready, with the buffer it is
in, or the mark of the end. -/
inductive Slot (D : Type) where
  | filling (pfn : Nat)
  | full (pfn : Nat) (page : Option (Nat × D))
  | mark

def Slot.pfn : Slot D → Option Nat
  | .filling pfn => some pfn
  | .full pfn _ => some pfn
  | .mark => none

def Slot.IsFull : Slot D → Prop
  | .full _ _ => True
  | _ => False

def HoldsSlot (endPfn : Nat) (f : PageFlag) : Slot D → Prop
  | .filling pfn => f.pfn = pfn ∧ f.ready = .filling ∧ pfn < endPfn
  | .full pfn none => f.pfn = pfn ∧ f.ready = .ready ∧ f.zero = true ∧ pfn < endPfn
  | .full pfn (some (b, _)) =>
    f.pfn = pfn ∧ f.ready = .ready ∧ f.zero = false ∧ f.index = b ∧ pfn < endPfn
  | .mark => endPfn ≤ f.pfn ∧ f.ready = .filling

abbrev RingOk (endPfn : Nat) (f : Nat → PageFlag) (c : Nat) (q : List (Slot D)) : Prop :=
  Ring pageFlagNum (HoldsSlot endPfn) (fun f => f.ready = .unused) f c q

/-- What a producer is at: it has no page, it works at a page, it has reached the end, or it has
left. -/
inductive Phase where
  | idle
  | busy (pfn : Nat)
  | ended
  | left
  deriving DecidableEq

def phase (endPfn : Nat) : ProducerPc D → Phase
  | .post pfn => if endPfn ≤ pfn then .ended else .busy pfn
  | .setEnd | .giveBack | .done => .ended
  | .produce pfn | .setZero pfn _ | .copy pfn _ | .setIndex pfn _ | .publish pfn _ => .busy pfn
  | .left => .left
  | _ => .idle

/-- The ring of a producer, from `c` on, and its place in it. -/
def Shape (q : List (Slot D)) (c pos : Nat) : Phase → Prop
  | .idle => (∀ x ∈ q, x.IsFull) ∧ pos = (c + q.length) % pageFlagNum
  | .busy pfn => ∃ l, q = l ++ [.filling pfn] ∧ (∀ x ∈ l, x.IsFull) ∧
      pos = (c + l.length) % pageFlagNum
  | .ended => q = [] ∨ ∃ l, q = l ++ [.mark] ∧ ∀ x ∈ l, x.IsFull
  | .left => ∃ l, (q = l ∨ ∃ pfn, q = l ++ [.filling pfn]) ∧ ∀ x ∈ l, x.IsFull

/-- The page that was taken under the mutex, and is not in the ring yet. -/
def coming : ProducerPc D → Option Nat
  | .mark pfn | .fill pfn => some pfn
  | _ => none

/-- The next cell is free. -/
def HasRoom (q : List (Slot D)) : ProducerPc D → Prop
  | .take | .mark _ | .fill _ => q.length < pageFlagNum
  | _ => True

/-- What a producer has put into its `page_flag`. -/
def FlagOk (f : PageFlag) (index : Nat) : ProducerPc D → Prop
  | .fill pfn => f.pfn = pfn
  | .copy _ _ | .setIndex _ _ => f.zero = false
  | .publish _ none => f.zero = true
  | .publish _ (some _) => f.zero = false ∧ f.index = index
  | _ => True

structure ThreadOk (job : Job) (p : Producer D) (f : Nat → PageFlag) (c : Nat) (q : List (Slot D)) :
    Prop where
  ring : RingOk job.endPfn f c q
  shape : Shape q c p.pos (phase job.endPfn p.pc)
  room : HasRoom q p.pc
  index : p.index < job.numBuffers
  flag : FlagOk (f p.pos) p.index p.pc

theorem nextFlag_pos {c n : Nat} : nextFlag ((c + n) % pageFlagNum) = (c + (n + 1)) %
    pageFlagNum := by
  rw [nextFlag, Nat.mod_add_mod, Nat.add_assoc]

/-- A full cell at the front is not the one the producer writes to. -/
theorem front_ne {c n : Nat} (hc : c < pageFlagNum) (h0 : 0 < n) (hn : n < pageFlagNum) :
    (c + n) % pageFlagNum ≠ c := by
  intro h
  have := ring_inj hn (Nat.zero_lt_of_lt hc) (show (c + n) % pageFlagNum = (c + 0) % pageFlagNum by
    rw [h, Nat.add_zero, Nat.mod_eq_of_lt hc])
  omega

theorem shift_front {c n : Nat} : (nextFlag c + n) % pageFlagNum = (c + (n + 1)) % pageFlagNum := by
  rw [nextFlag, Nat.mod_add_mod]
  congr 1
  omega

section ThreadOk

variable {p : Producer D} {f : Nat → PageFlag} {c : Nat} {q : List (Slot D)}

/-- The mark is in the ring only at the end. -/
theorem ThreadOk.ended_of_mark (h : ThreadOk job p f c [.mark]) : phase job.endPfn
    p.pc = .ended := by
  have hshape := h.shape
  cases hp : phase job.endPfn p.pc with
  | ended => rfl
  | idle =>
    rw [hp] at hshape
    exact (hshape.1 _ List.mem_cons_self).elim
  | busy pfn =>
    rw [hp] at hshape
    obtain ⟨l, hl, -, -⟩ := hshape
    cases (List.append_eq_singleton_iff.mp hl.symm) with
    | inl h => cases h.2
    | inr h => cases h.2
  | left =>
    rw [hp] at hshape
    obtain ⟨l, hl | ⟨pfn, hl⟩, hfull⟩ := hshape
    · exact (show False from hfull .mark (hl ▸ List.mem_cons_self)).elim
    · cases (List.append_eq_singleton_iff.mp hl.symm) with
      | inl h => cases h.2
      | inr h => cases h.2

/-- At the end nothing is expected of the flag. -/
theorem flagOk_of_ended {f : PageFlag} {index : Nat} {pc : ProducerPc D}
    (h : phase job.endPfn pc = .ended) : FlagOk f index pc := by
  cases pc <;> trivial

theorem hasRoom_of_le {q q' : List (Slot D)} {pc : ProducerPc D} (hle : q'.length ≤ q.length)
    (h : HasRoom q pc) : HasRoom q' pc := by
  cases pc <;> first | trivial | exact Nat.lt_of_le_of_lt hle h

/-- The consumer takes the mark. -/
theorem ThreadOk.clear (h : ThreadOk job p f c [.mark]) :
    ThreadOk job p (Function.update f c { f c with ready := .unused }) c [] := by
  have hended := h.ended_of_mark
  refine ⟨h.ring.clear rfl, ?_, hasRoom_of_le (Nat.zero_le _) h.room, h.index,
    flagOk_of_ended hended⟩
  rw [hended]
  exact .inl rfl

/-- The consumer takes the first page. -/
theorem ThreadOk.pop {pfn : Nat} {page : Option (Nat × D)}
    (h : ThreadOk job p f c (.full pfn page :: q)) :
    ThreadOk job p (Function.update f c { f c with ready := .unused }) (nextFlag c) q := by
  have hstart := h.ring.start
  have htail : ∀ {l : List (Slot D)} {x}, Slot.full pfn page :: q = l ++ [x] → ¬ x.IsFull →
      ∃ l', l = .full pfn page :: l' ∧ q = l' ++ [x] := by
    intro l x hl hx
    cases l with
    | nil =>
      cases hl
      exact (hx trivial).elim
    | cons y l =>
      cases hl
      exact ⟨l, rfl, rfl⟩
  refine ⟨h.ring.pop rfl, ?_, hasRoom_of_le (Nat.le_succ _) h.room, h.index, ?_⟩
  · have hshape := h.shape
    cases hp : phase job.endPfn p.pc with
    | idle =>
      rw [hp] at hshape
      refine ⟨fun x hx => hshape.1 x (List.mem_cons_of_mem _ hx), ?_⟩
      rw [shift_front]
      exact hshape.2
    | busy pfn' =>
      rw [hp] at hshape
      obtain ⟨l, hl, hfull, hpos⟩ := hshape
      obtain ⟨l', rfl, hq⟩ := htail hl id
      refine ⟨l', hq, fun x hx => hfull x (List.mem_cons_of_mem _ hx), ?_⟩
      rw [shift_front]
      exact hpos
    | ended =>
      rw [hp] at hshape
      obtain hnil | ⟨l, hl, hfull⟩ := hshape
      · cases hnil
      · obtain ⟨l', rfl, hq⟩ := htail hl id
        exact .inr ⟨l', hq, fun x hx => hfull x (List.mem_cons_of_mem _ hx)⟩
    | left =>
      rw [hp] at hshape
      obtain ⟨l, hl | ⟨pfn', hl⟩, hfull⟩ := hshape
      · exact ⟨q, .inl rfl, fun x hx => hfull x (hl ▸ List.mem_cons_of_mem _ hx)⟩
      · obtain ⟨l', rfl, hq⟩ := htail hl id
        exact ⟨l', .inr ⟨pfn', hq⟩, fun x hx => hfull x (List.mem_cons_of_mem _ hx)⟩
  · -- the producer writes to another cell
    have hbusy : ∀ pfn', phase job.endPfn p.pc = .busy pfn' → p.pos ≠ c := by
      intro pfn' hp
      have hshape := h.shape
      rw [hp] at hshape
      obtain ⟨l, hl, -, hpos⟩ := hshape
      obtain ⟨l', rfl, hq⟩ := htail hl id
      have hlen := h.ring.length_le
      rw [hl, List.length_append] at hlen
      rw [hpos]
      exact front_ne hstart (Nat.succ_pos _) hlen
    have hflag := h.flag
    have hne : (∃ pfn', p.pc = .fill pfn') → p.pos ≠ c := by
      rintro ⟨pfn', hp⟩
      have hshape := h.shape
      have hroom := h.room
      rw [hp] at hshape hroom
      rw [hshape.2]
      exact front_ne hstart (Nat.succ_pos _) hroom
    cases hpc : p.pc with
    | fill pfn' =>
      rw [Function.update_of_ne (hne ⟨pfn', hpc⟩)]
      exact hpc ▸ hflag
    | copy pfn' data =>
      rw [Function.update_of_ne (hbusy pfn' (by rw [hpc]; rfl))]
      exact hpc ▸ hflag
    | setIndex pfn' data =>
      rw [Function.update_of_ne (hbusy pfn' (by rw [hpc]; rfl))]
      exact hpc ▸ hflag
    | publish pfn' page' =>
      rw [Function.update_of_ne (hbusy pfn' (by rw [hpc]; rfl))]
      exact hpc ▸ hflag
    | lockData | probe | claim | poll | take | mark | post | setEnd | giveBack | produce | setZero
    | done | left => trivial

end ThreadOk

/-! ## The invariant -/

/-- What the program does not have: the content of the rings, the pages that were taken and that the
consumer has not done with, in their order, and those that it has done with. -/
structure Ghost (D : Type) where
  queue : Nat → List (Slot D)
  pending : List (Nat × Nat)
  eaten : List Nat

def unposted : ProducerPc D → Nat
  | .post _ => 1
  | _ => 0

def endedCount (endPfn : Nat) (pc : ProducerPc D) : Nat := if phase endPfn pc = .ended then 1 else 0

/-- The mark of the producer was there and is taken. -/
def counted (endPfn : Nat) (pc : ProducerPc D) (q : List (Slot D)) : Nat :=
  if phase endPfn pc = .ended ∧ q.isEmpty = true then 1 else 0

def past : ConsumerPc → Nat
  | .wait => 0
  | _ => 1

/-- The consumer has looked at the threads below `n`. -/
def Seen (job : Job) (g : Ghost D) (n current consuming : Nat) : Prop :=
  match g.pending with
  | [] => current = job.endPfn ∧ consuming = 0
  | (t, pfn) :: _ => if t < n then current = pfn ∧ consuming = t else pfn < current

/-- The first page is at the front of the ring of the thread `t`, and ready. -/
def Front (g : Ghost D) (t : Nat) (page : Option (Nat × D)) : Prop :=
  ∃ pfn rest l, g.pending = (t, pfn) :: rest ∧ g.queue t = .full pfn page :: l

def ConsumerOk (job : Job) (g : Ghost D) (endCount : Nat) : ConsumerPc → Prop
  | .wait | .failed => True
  | .scan n current consuming => n ≤ job.numThreads ∧ Seen job g n current consuming
  | .look n current consuming =>
    n < job.numThreads ∧ Seen job g n current consuming ∧ g.queue n ≠ []
  | .unmark n current consuming =>
    n < job.numThreads ∧ Seen job g n current consuming ∧ g.queue n = [.mark]
  | .check current consuming => Seen job g job.numThreads current consuming
  | .confirm current consuming =>
    Seen job g job.numThreads current consuming ∧ ∃ page, Front g consuming page
  | .readZero consuming | .unuse consuming => ∃ page, Front g consuming page
  | .readIndex consuming => ∃ x, Front g consuming (some x)
  | .write consuming index | .release consuming index =>
    ∃ (b : Nat) (data : D), Front g consuming (some (b, data)) ∧ index = b
  | .finished => job.numThreads ≤ endCount

/-- The page under the mutex. -/
def State.comingPages (s : State D) (endPfn : Nat) : List Nat :=
  ((s.pfnMutex.bind fun i => coming (s.producers i).pc).toList).filter (· < endPfn)

structure Inv (job : Job) (s : State D) (g : Ghost D) : Prop where
  start : job.startPfn ≤ s.currentPfn ∧ job.startPfn < job.endPfn
  thread : ∀ i < job.numThreads,
    ThreadOk job (s.producers i) (s.flags i) (s.rings i) (g.queue i)
  pending : ∀ i < job.numThreads,
    (g.queue i).filterMap Slot.pfn = (g.pending.filter (·.1 = i)).map Prod.snd
  inside : ∀ e ∈ g.pending, e.1 < job.numThreads
  mutex : ∀ i < job.numThreads, (coming (s.producers i).pc).isSome = true → s.pfnMutex = some i
  holder : ∀ i, s.pfnMutex = some i →
    i < job.numThreads ∧ (coming (s.producers i).pc).isSome = true
  order : g.eaten ++ g.pending.map Prod.snd ++ s.comingPages job.endPfn =
    job.pagesBelow s.currentPfn
  sem : s.sem + past s.consumer + ∑ i ∈ Finset.range job.numThreads, unposted (s.producers i).pc =
    g.pending.length + ∑ i ∈ Finset.range job.numThreads, endedCount job.endPfn (s.producers i).pc
  endCount : s.endCount =
    ∑ i ∈ Finset.range job.numThreads, counted job.endPfn (s.producers i).pc (g.queue i)
  atEnd : ∀ i < job.numThreads, phase job.endPfn (s.producers i).pc = .ended →
    job.endPfn ≤ s.currentPfn
  comingEnd : ∀ i < job.numThreads, ∀ pfn, coming (s.producers i).pc = some pfn →
    job.endPfn ≤ pfn → job.endPfn ≤ s.currentPfn
  alone : ∀ i < job.numThreads, ∀ pfn, coming (s.producers i).pc = some pfn → pfn < job.endPfn →
    ∀ j < job.numThreads, phase job.endPfn (s.producers j).pc ≠ .ended
  consumer : ConsumerOk job g s.endCount s.consumer

/-- A sum in which one term changes. -/
theorem sum_change {n : Nat} (hi : i < n) {F G : Nat → Nat} (h : ∀ j < n, j ≠ i → F j = G j) :
    ∑ j ∈ Finset.range n, F j + G i = ∑ j ∈ Finset.range n, G j + F i := by
  have hmem := Finset.mem_range.mpr hi
  have hrest : ∑ j ∈ (Finset.range n).erase i, F j = ∑ j ∈ (Finset.range n).erase i, G j := by
    refine Finset.sum_congr rfl fun j hj => ?_
    rw [Finset.mem_erase, Finset.mem_range] at hj
    exact h j hj.2 hj.1
  rw [← Finset.add_sum_erase _ F hmem, ← Finset.add_sum_erase _ G hmem, hrest]
  omega

/-! ## What producers do to the consumer -/

/-- The first page stays the first, and what is at the front of a ring stays there. -/
structure Grows (g g' : Ghost D) : Prop where
  pending : g'.pending = g.pending ∨ g.pending ≠ [] ∧ ∃ x, g'.pending = g.pending ++ x
  front : ∀ n pfn page l, g.queue n = .full pfn page :: l → ∃ l', g'.queue n = .full pfn page :: l'
  ne_nil : ∀ n, g.queue n ≠ [] → g'.queue n ≠ []
  mark : ∀ n, g.queue n = [.mark] → g'.queue n = [.mark]

variable {g g' : Ghost D}

theorem Grows.pending_cons (h : Grows g g') {e : Nat × Nat} {rest : List (Nat × Nat)}
    (hp : g.pending = e :: rest) : ∃ rest', g'.pending = e :: rest' := by
  rcases h.pending with he | ⟨-, x, he⟩
  · exact ⟨rest, he.trans hp⟩
  · exact ⟨rest ++ x, by rw [he, hp, List.cons_append]⟩

theorem Grows.seen (h : Grows g g') {n current consuming : Nat}
    (hs : Seen job g n current consuming) :
    Seen job g' n current consuming := by
  unfold Seen at hs ⊢
  cases hp : g.pending with
  | nil =>
    rw [hp] at hs
    rcases h.pending with he | ⟨hne, -⟩
    · rw [he, hp]
      exact hs
    · exact absurd hp hne
  | cons e rest =>
    obtain ⟨rest', hp'⟩ := h.pending_cons hp
    rw [hp] at hs
    rw [hp']
    exact hs

theorem Grows.isFront (h : Grows g g') {t : Nat} {page : Option (Nat × D)} (hf : Front g t page) :
    Front g' t page := by
  obtain ⟨pfn, rest, l, hp, hq⟩ := hf
  obtain ⟨rest', hp'⟩ := h.pending_cons hp
  obtain ⟨l', hq'⟩ := h.front t pfn page l hq
  exact ⟨pfn, rest', l', hp', hq'⟩

theorem Grows.consumerOk (h : Grows g g') {endCount : Nat} {pc : ConsumerPc}
    (hc : ConsumerOk job g endCount pc) : ConsumerOk job g' endCount pc := by
  cases pc with
  | wait | failed | finished => exact hc
  | scan n current consuming => exact ⟨hc.1, h.seen hc.2⟩
  | look n current consuming => exact ⟨hc.1, h.seen hc.2.1, h.ne_nil n hc.2.2⟩
  | unmark n current consuming => exact ⟨hc.1, h.seen hc.2.1, h.mark n hc.2.2⟩
  | check current consuming => exact h.seen hc
  | confirm current consuming =>
    obtain ⟨hs, page, hf⟩ := hc
    exact ⟨h.seen hs, page, h.isFront hf⟩
  | readZero consuming | unuse consuming =>
    obtain ⟨page, hf⟩ := hc
    exact ⟨page, h.isFront hf⟩
  | readIndex consuming =>
    obtain ⟨x, hf⟩ := hc
    exact ⟨x, h.isFront hf⟩
  | write consuming index | release consuming index =>
    obtain ⟨b, data, hf, hi⟩ := hc
    exact ⟨b, data, h.isFront hf, hi⟩

/-! ## Steps of a producer -/

/-- A step of the producer `i` leaves what belongs to the others. -/
structure Frame (s s' : State D) (i : Nat) (p' : Producer D) : Prop where
  producers : s'.producers = Function.update s.producers i p'
  flags : ∀ j ≠ i, s'.flags j = s.flags j
  rings : s'.rings = s.rings
  consumer : s'.consumer = s.consumer
  endCount : s'.endCount = s.endCount

theorem Frame.self {p' : Producer D} (h : Frame s s' i p') : s'.producers i = p' := by
  rw [h.producers, Function.update_self]

theorem Frame.other {p' : Producer D} (h : Frame s s' i p') {j : Nat} (hj : j ≠ i) :
    s'.producers j = s.producers j := by
  rw [h.producers, Function.update_of_ne hj]

/-- A step at which the pages stay where they are, but for what is known of them. -/
theorem Inv.local_step (h : Inv job s g) (hi : i < job.numThreads) {p' : Producer D}
    (hf : Frame s s' i p') {q : List (Slot D)}
    (hthread : ThreadOk job p' (s'.flags i) (s.rings i) q)
    (hpages : q.filterMap Slot.pfn = (g.queue i).filterMap Slot.pfn)
    (hcoming : coming p'.pc = coming (s.producers i).pc)
    (hended : phase job.endPfn p'.pc = .ended ↔ phase job.endPfn (s.producers i).pc = .ended)
    (hsame : phase job.endPfn p'.pc = .ended → q = g.queue i)
    (hsem : s'.sem + unposted p'.pc = s.sem + unposted (s.producers i).pc)
    (hmutex : s'.pfnMutex = s.pfnMutex)
    (hcur : s'.currentPfn = s.currentPfn ∨
      job.endPfn ≤ s.currentPfn ∧ s'.currentPfn = job.endPfn)
    (hgrows : Grows g { g with queue := Function.update g.queue i q }) :
    Inv job s' { g with queue := Function.update g.queue i q } := by
  have hc : ∀ j, coming (s'.producers j).pc = coming (s.producers j).pc := by
    intro j
    by_cases hj : j = i
    · rw [hj, hf.self, hcoming]
    · rw [hf.other hj]
  have he : ∀ j, phase job.endPfn (s'.producers j).pc = .ended ↔
      phase job.endPfn (s.producers j).pc = .ended := by
    intro j
    by_cases hj : j = i
    · rw [hj, hf.self, hended]
    · rw [hf.other hj]
  have hend : job.endPfn ≤ s.currentPfn → job.endPfn ≤ s'.currentPfn := by
    rcases hcur with hcur | ⟨-, hcur⟩
    · rw [hcur]
      exact id
    · rw [hcur]
      exact fun _ => Nat.le_refl _
  constructor
  case start =>
    refine ⟨?_, h.start.2⟩
    rcases hcur with hcur | ⟨-, hcur⟩
    · rw [hcur]
      exact h.start.1
    · rw [hcur]
      exact Nat.le_of_lt h.start.2
  case thread =>
    intro j hj
    rw [hf.rings]
    by_cases hji : j = i
    · subst hji
      rw [hf.self]
      simpa using hthread
    · rw [hf.other hji, hf.flags j hji]
      simpa [Function.update_of_ne hji] using h.thread j hj
  case pending =>
    intro j hj
    by_cases hji : j = i
    · subst hji
      simpa [hpages] using h.pending j hj
    · simpa [Function.update_of_ne hji] using h.pending j hj
  case inside => exact h.inside
  case mutex =>
    intro j hj hsome
    rw [hmutex]
    exact h.mutex j hj (hc j ▸ hsome)
  case holder =>
    intro j hj
    rw [hc j]
    exact h.holder j (hmutex ▸ hj)
  case order =>
    have hpages : s'.comingPages job.endPfn = s.comingPages job.endPfn := by
      unfold State.comingPages
      simp only [hmutex, hc]
    rw [hpages]
    refine h.order.trans ?_
    rcases hcur with hcur | ⟨hle, hcur⟩
    · rw [hcur]
    · rw [hcur, pagesBelow_end hle, pagesBelow_end (Nat.le_refl _)]
  case sem =>
    have h1 := sum_change hi (F := fun j => unposted (s'.producers j).pc)
      (G := fun j => unposted (s.producers j).pc) fun j _ hj => by rw [hf.other hj]
    have h2 : ∑ j ∈ Finset.range job.numThreads, endedCount job.endPfn (s'.producers j).pc =
        ∑ j ∈ Finset.range job.numThreads, endedCount job.endPfn (s.producers j).pc :=
      Finset.sum_congr rfl fun j _ => by simp only [endedCount, he]
    have h3 := h.sem
    rw [hf.self] at h1
    rw [hf.consumer, h2]
    simp only at h3 ⊢
    omega
  case endCount =>
    rw [hf.endCount, h.endCount]
    refine Finset.sum_congr rfl fun j _ => ?_
    unfold counted
    simp only [he]
    by_cases hji : j = i
    · subst hji
      rw [Function.update_self]
      by_cases hp : phase job.endPfn (s.producers j).pc = .ended
      · rw [hsame (hended.mpr hp)]
      · rw [if_neg fun hn => hp hn.1, if_neg fun hn => hp hn.1]
    · rw [Function.update_of_ne hji]
  case atEnd => exact fun j hj hp => hend (h.atEnd j hj ((he j).mp hp))
  case comingEnd =>
    exact fun j hj pfn hp hle => hend (h.comingEnd j hj pfn (hc j ▸ hp) hle)
  case alone =>
    exact fun j hj pfn hp hlt k hk hended => h.alone j hj pfn (hc j ▸ hp) hlt k hk
      ((he k).mp hended)
  case consumer =>
    rw [hf.consumer, hf.endCount]
    exact hgrows.consumerOk h.consumer

theorem Grows.refl (g : Ghost D) : Grows g g :=
  ⟨.inl rfl, fun _ _ _ l h => ⟨l, h⟩, fun _ h => h, fun _ h => h⟩

/-- A step at which the rings hold the same. -/
theorem Inv.silent_step (h : Inv job s g) (hi : i < job.numThreads) {p' : Producer D}
    (hf : Frame s s' i p') (hthread : ThreadOk job p' (s'.flags i) (s.rings i) (g.queue i))
    (hcoming : coming p'.pc = coming (s.producers i).pc)
    (hended : phase job.endPfn p'.pc = .ended ↔ phase job.endPfn (s.producers i).pc = .ended)
    (hsem : s'.sem + unposted p'.pc = s.sem + unposted (s.producers i).pc)
    (hmutex : s'.pfnMutex = s.pfnMutex)
    (hcur : s'.currentPfn = s.currentPfn ∨
      job.endPfn ≤ s.currentPfn ∧ s'.currentPfn = job.endPfn) : Inv job s' g := by
  have hg : { g with queue := Function.update g.queue i (g.queue i) } = g := by
    rw [Function.update_eq_self]
  have := h.local_step hi hf hthread rfl hcoming hended (fun _ => rfl) hsem hmutex hcur
    (hg.symm ▸ .refl g)
  rwa [hg] at this

theorem Inv.no_coming (h : Inv job s g) (hmutex : s.pfnMutex = none) :
    (∀ j < job.numThreads, coming (s.producers j).pc = none) ∧
      s.comingPages job.endPfn = [] := by
  refine ⟨fun j hj => ?_, by rw [State.comingPages, hmutex]; rfl⟩
  by_contra hne
  have := h.mutex j hj (Option.isSome_iff_ne_none.mpr hne)
  rw [hmutex] at this
  cases this

/-- The next page is taken. -/
theorem Inv.take_step (h : Inv job s g) (hi : i < job.numThreads)
    (hpc : (s.producers i).pc = .take) (hmutex : s.pfnMutex = none) :
    Inv job ({ s with pfnMutex := some i, currentPfn := job.nextDumpable s.currentPfn + 1
        }.setProducer
      i { s.producers i with pc := .mark (job.nextDumpable s.currentPfn) }) g := by
  obtain ⟨hnone, hnil⟩ := h.no_coming hmutex
  have hle := @le_nextDumpable job s.currentPfn
  have hne : ∀ {j}, j ≠ i → ∀ x, Function.update s.producers i x j = s.producers j :=
    fun hj x => Function.update_of_ne hj _ _
  have hcoming : ∀ j < job.numThreads, ∀ x, coming (Function.update s.producers i x j).pc ≠ none →
      j = i := by
    intro j hj x hc
    by_contra hji
    rw [hne hji] at hc
    exact hc (hnone j hj)
  have hended : ∀ j < job.numThreads,
      phase job.endPfn (Function.update s.producers i
        { s.producers i with pc := .mark (job.nextDumpable s.currentPfn) } j).pc = .ended ↔
      phase job.endPfn (s.producers j).pc = .ended := by
    intro j hj
    by_cases hji : j = i
    · subst hji
      rw [Function.update_self, hpc]
      rfl
    · rw [hne hji]
  constructor
  case start => exact ⟨by have := h.start.1; simp only [State.setProducer]; omega, h.start.2⟩
  case thread =>
    intro j hj
    have ht := h.thread j hj
    simp only [State.setProducer]
    by_cases hji : j = i
    · subst hji
      rw [Function.update_self]
      have hshape := ht.shape
      have hroom := ht.room
      rw [hpc] at hshape hroom
      exact ⟨ht.ring, hshape, hroom, ht.index, trivial⟩
    · rw [hne hji]
      exact ht
  case pending => exact h.pending
  case inside => exact h.inside
  case mutex =>
    intro j hj hsome
    exact congrArg some (hcoming j hj _ (Option.isSome_iff_ne_none.mp hsome)).symm
  case holder =>
    intro j hj
    obtain rfl := Option.some.inj hj
    refine ⟨hi, ?_⟩
    simp only [State.setProducer, Function.update_self]
    rfl
  case order =>
    have ho := h.order
    rw [hnil, List.append_nil] at ho
    rw [ho]
    simp only [State.setProducer, State.comingPages, Option.bind_some, Function.update_self, coming]
    rw [pagesBelow_next h.start.1]
    congr 1
    by_cases hlt : job.nextDumpable s.currentPfn < job.endPfn
    · rw [if_pos hlt]
      simp [hlt]
    · rw [if_neg hlt]
      simp [hlt]
  case sem =>
    have h1 : ∑ j ∈ Finset.range job.numThreads, unposted (Function.update s.producers i
        { s.producers i with pc := .mark (job.nextDumpable s.currentPfn) } j).pc =
        ∑ j ∈ Finset.range job.numThreads, unposted (s.producers j).pc := by
      refine Finset.sum_congr rfl fun j _ => ?_
      by_cases hji : j = i
      · subst hji
        rw [Function.update_self, hpc]
        rfl
      · rw [hne hji]
    have h2 : ∑ j ∈ Finset.range job.numThreads, endedCount job.endPfn
      (Function.update s.producers i
        { s.producers i with pc := .mark (job.nextDumpable s.currentPfn) } j).pc =
        ∑ j ∈ Finset.range job.numThreads, endedCount job.endPfn (s.producers j).pc :=
      Finset.sum_congr rfl fun j hj => by
        simp only [endedCount, hended j (Finset.mem_range.mp hj)]
    simp only [State.setProducer]
    rw [h1, h2]
    exact h.sem
  case endCount =>
    refine h.endCount.trans (Finset.sum_congr rfl fun j hj => ?_)
    simp only [State.setProducer, counted, hended j (Finset.mem_range.mp hj)]
  case atEnd =>
    intro j hj hp
    have := h.atEnd j hj ((hended j hj).mp hp)
    simp only [State.setProducer]
    omega
  case comingEnd =>
    intro j hj pfn hp hend
    obtain rfl := hcoming j hj _ (by simp only [State.setProducer] at hp; rw [hp]; simp)
    simp only [State.setProducer, Function.update_self, coming, Option.some.injEq] at hp ⊢
    omega
  case alone =>
    intro j hj pfn hp hlt k hk hk'
    obtain rfl := hcoming j hj _ (by simp only [State.setProducer] at hp; rw [hp]; simp)
    simp only [State.setProducer, Function.update_self, coming, Option.some.injEq] at hp
    have := h.atEnd k hk ((hended k hk).mp hk')
    omega
  case consumer => exact h.consumer

/-- Something is pending while the consumer looks, unless a producer has reached the end. -/
theorem Inv.pending_or_ended (h : Inv job s g) (hc : s.consumer ≠ .wait) :
    g.pending ≠ [] ∨ ∃ j < job.numThreads, phase job.endPfn (s.producers j).pc = .ended := by
  have hpast : past s.consumer = 1 := by
    cases hs : s.consumer <;> first | rfl | exact absurd hs hc
  by_contra hno
  rw [not_or, not_not] at hno
  obtain ⟨hnil, hno⟩ := hno
  have hzero : ∑ j ∈ Finset.range job.numThreads, endedCount job.endPfn (s.producers j).pc = 0 := by
    refine Finset.sum_eq_zero fun j hj => ?_
    rw [endedCount, if_neg fun hp => hno ⟨j, Finset.mem_range.mp hj, hp⟩]
  have hsem := h.sem
  rw [hzero, hnil, List.length_nil, hpast] at hsem
  omega

/-- The page that was taken comes into the ring, or the mark of the end. -/
theorem Inv.fill_step (h : Inv job s g) (hi : i < job.numThreads) {pfn : Nat}
    (hpc : (s.producers i).pc = .fill pfn) {p' : Producer D} (hf : Frame s s' i p')
    (hmutex : s'.pfnMutex = none) (hsem : s'.sem = s.sem) (hcur : s'.currentPfn = s.currentPfn)
    (hp' : p'.pc = .post pfn) {x : Slot D} {new : List (Nat × Nat)}
    (hthread : ThreadOk job p' (s'.flags i) (s.rings i) (g.queue i ++ [x]))
    (hx : pfn < job.endPfn ∧ x = .filling pfn ∧ new = [(i, pfn)] ∨
      job.endPfn ≤ pfn ∧ x = .mark ∧ new = []) :
    Inv job s' { g with
      queue := Function.update g.queue i (g.queue i ++ [x]), pending := g.pending ++ new } := by
  have hown := h.mutex i hi (by rw [hpc]; rfl)
  have hother : ∀ j < job.numThreads, j ≠ i → coming (s.producers j).pc = none := by
    intro j hj hji
    by_contra hne
    have := h.mutex j hj (Option.isSome_iff_ne_none.mpr hne)
    rw [hown] at this
    exact hji (Option.some.inj this).symm
  have hnone : ∀ j < job.numThreads, coming (s'.producers j).pc = none := by
    intro j hj
    by_cases hji : j = i
    · rw [hji, hf.self, hp']
      rfl
    · rw [hf.other hji]
      exact hother j hj hji
  have hshape := (h.thread i hi).shape
  rw [hpc] at hshape
  constructor
  case start => exact hcur ▸ h.start
  case thread =>
    intro j hj
    rw [hf.rings]
    by_cases hji : j = i
    · subst hji
      rw [hf.self]
      simpa using hthread
    · rw [hf.other hji, hf.flags j hji]
      simpa [Function.update_of_ne hji] using h.thread j hj
  case pending =>
    intro j hj
    have hold := h.pending j hj
    by_cases hji : j = i
    · subst hji
      rcases hx with ⟨-, rfl, rfl⟩ | ⟨-, rfl, rfl⟩
      · simp [hold, Slot.pfn]
      · simp [hold, Slot.pfn]
    · rcases hx with ⟨-, rfl, rfl⟩ | ⟨-, rfl, rfl⟩
      · simpa [Function.update_of_ne hji, Ne.symm hji] using hold
      · simpa [Function.update_of_ne hji] using hold
  case inside =>
    intro e he
    rcases List.mem_append.mp he with he | he
    · exact h.inside e he
    · rcases hx with ⟨-, -, rfl⟩ | ⟨-, -, rfl⟩
      · rw [List.mem_singleton.mp he]
        exact hi
      · cases he
  case mutex =>
    intro j hj hsome
    rw [hnone j hj] at hsome
    cases hsome
  case holder =>
    intro j hj
    rw [hmutex] at hj
    cases hj
  case order =>
    have hnil : s'.comingPages job.endPfn = [] := by
      rw [State.comingPages, hmutex]
      rfl
    have hcoming : s.comingPages job.endPfn = new.map Prod.snd := by
      rw [State.comingPages, hown, Option.bind_some, hpc]
      rcases hx with ⟨hlt, -, rfl⟩ | ⟨hle, -, rfl⟩
      · simp [coming, hlt]
      · simp [coming, hle]
    rw [hnil, hcur, ← h.order, hcoming, List.append_nil, List.map_append, List.append_assoc]
  case sem =>
    have h1 := sum_change hi (F := fun j => unposted (s'.producers j).pc)
      (G := fun j => unposted (s.producers j).pc) fun j _ hj => by rw [hf.other hj]
    have h2 := sum_change hi (F := fun j => endedCount job.endPfn (s'.producers j).pc)
      (G := fun j => endedCount job.endPfn (s.producers j).pc) fun j _ hj => by rw [hf.other hj]
    have h3 := h.sem
    have hu : unposted (.post pfn : ProducerPc D) = 1 := rfl
    have hu' : unposted (.fill pfn : ProducerPc D) = 0 := rfl
    have he : endedCount job.endPfn (.fill pfn : ProducerPc D) = 0 := rfl
    have he' : endedCount job.endPfn (.post pfn : ProducerPc D) + new.length = 1 := by
      rcases hx with ⟨hlt, -, rfl⟩ | ⟨hle, -, rfl⟩
      · simp [endedCount, phase, Nat.not_le.mpr hlt]
      · simp [endedCount, phase, hle]
    simp only [hf.self, hp', hpc, hu, hu', he] at h1 h2
    rw [hf.consumer, hsem, List.length_append]
    omega
  case endCount =>
    rw [hf.endCount, h.endCount]
    refine Finset.sum_congr rfl fun j _ => ?_
    by_cases hji : j = i
    · subst hji
      simp [counted, hpc, phase]
    · simp [counted, hf.other hji, Function.update_of_ne hji]
  case atEnd =>
    intro j hj hp
    rw [hcur]
    by_cases hji : j = i
    · subst hji
      rw [hf.self, hp'] at hp
      refine h.comingEnd j hj pfn (by rw [hpc]; rfl) ?_
      by_contra hlt
      rw [phase, if_neg hlt] at hp
      cases hp
    · exact h.atEnd j hj (hf.other hji ▸ hp)
  case comingEnd =>
    intro j hj q hq
    rw [hnone j hj] at hq
    cases hq
  case alone =>
    intro j hj q hq
    rw [hnone j hj] at hq
    cases hq
  case consumer =>
    rw [hf.consumer, hf.endCount]
    by_cases hwait : s.consumer = .wait
    · rw [hwait]
      trivial
    · refine Grows.consumerOk ?_ h.consumer
      refine ⟨?_, ?_, ?_, ?_⟩
      · rcases hx with ⟨hlt, -, rfl⟩ | ⟨-, -, rfl⟩
        · refine .inr ⟨?_, _, rfl⟩
          rcases h.pending_or_ended hwait with hne | ⟨j, hj, hended⟩
          · exact hne
          · exact absurd hended (h.alone i hi pfn (by rw [hpc]; rfl) hlt j hj)
        · exact .inl (List.append_nil _)
      · intro n q page l hq
        by_cases hn : n = i
        · subst hn
          exact ⟨l ++ [x], by simp [hq]⟩
        · exact ⟨l, by simpa [Function.update_of_ne hn] using hq⟩
      · intro n hq
        by_cases hn : n = i
        · subst hn
          simp
        · simpa [Function.update_of_ne hn] using hq
      · intro n hq
        by_cases hn : n = i
        · subst hn
          exact (hshape.1 .mark (by rw [hq]; exact List.mem_cons_self)).elim
        · simpa [Function.update_of_ne hn] using hq

theorem Inv.fill_end (h : Inv job s g) (hi : i < job.numThreads) {pfn : Nat}
    (hpc : (s.producers i).pc = .fill pfn) {p' : Producer D} (hf : Frame s s' i p')
    (hmutex : s'.pfnMutex = none) (hsem : s'.sem = s.sem) (hcur : s'.currentPfn = s.currentPfn)
    (hp' : p'.pc = .post pfn) (hend : job.endPfn ≤ pfn)
    (hthread : ThreadOk job p' (s'.flags i) (s.rings i) (g.queue i ++ [.mark])) :
    Inv job s' { g with queue := Function.update g.queue i (g.queue i ++ [.mark]) } := by
  have := h.fill_step hi hpc hf hmutex hsem hcur hp' hthread (.inr ⟨hend, rfl, rfl⟩)
  rwa [List.append_nil] at this

/-- What a step of a producer does to the rings. -/
def Ghost.producerStep (g : Ghost D) (endPfn i : Nat) (p : Producer D) : Ghost D :=
  match p.pc with
  | .fill pfn =>
    if pfn < endPfn then
      { g with
        queue := Function.update g.queue i (g.queue i ++ [.filling pfn])
        pending := g.pending ++ [(i, pfn)] }
    else { g with queue := Function.update g.queue i (g.queue i ++ [.mark]) }
  | .publish pfn page =>
    { g with
      queue := Function.update g.queue i
        ((g.queue i).dropLast ++ [.full pfn (page.map fun data => (p.index, data))]) }
  | _ => g

/-- The thread after a step that only changes what it is at. -/
theorem ThreadOk.goto {p : Producer D} {f : Nat → PageFlag} {c : Nat} {q : List (Slot D)}
    (h : ThreadOk job p f c q) {pc : ProducerPc D} (hphase : phase job.endPfn pc = phase job.endPfn
    p.pc)
    (hroom : HasRoom q pc) (hflag : FlagOk (f p.pos) p.index pc) :
    ThreadOk job { p with pc } f c q :=
  ⟨h.ring, hphase ▸ h.shape, hroom, h.index, hflag⟩

/-- A full ring begins where the producer is. -/
theorem ThreadOk.has_room {p : Producer D} {f : Nat → PageFlag} {c : Nat} {q : List (Slot D)}
    (h : ThreadOk job p f c q) (hphase : phase job.endPfn p.pc = .idle)
    (hready : (f p.pos).ready ≠ .ready) : q.length < pageFlagNum := by
  have hshape := h.shape
  rw [hphase] at hshape
  by_contra hlt
  have hlen : q.length = pageFlagNum := Nat.le_antisymm h.ring.length_le (Nat.not_lt.mp hlt)
  have hpos : p.pos = c := by
    rw [hshape.2, hlen, Nat.add_mod_right, Nat.mod_eq_of_lt h.ring.start]
  cases q with
  | nil => cases hlen
  | cons x q =>
    have hx := hshape.1 x List.mem_cons_self
    have hholds := h.ring.holds_head
    rw [← hpos] at hholds
    cases x with
    | full pfn page =>
      cases page with
      | none => exact hready hholds.2.1
      | some b => exact hready hholds.2.1
    | filling pfn => exact hx
    | mark => exact hx

theorem toShort_of_lt {n : Nat} (h : n < 2 ^ 15) : toShort n = n := by
  unfold toShort
  exact Int.bmod_eq_of_le (by omega) (by omega)

section Frame

variable {p' : Producer D}

theorem frame_setProducer (s : State D) (i : Nat) (p' : Producer D) :
    Frame s (s.setProducer i p') i p' :=
  ⟨rfl, fun _ _ => rfl, rfl, rfl, rfl⟩

theorem frame_setBuffer (s : State D) (i : Nat) (p' : Producer D) (index : Int) (b : PageData D) :
    Frame s ((s.setBuffer index b).setProducer i p') i p' :=
  ⟨rfl, fun _ _ => rfl, rfl, rfl, rfl⟩

theorem frame_setFlag (s : State D) (i : Nat) (p' : Producer D) (pos : Nat) (f : PageFlag) :
    Frame s ((s.setFlag i pos f).setProducer i p') i p' :=
  ⟨rfl, fun _ hj => Function.update_of_ne hj _ _, rfl, rfl, rfl⟩

theorem setFlag_flags (s : State D) (i pos : Nat) (f : PageFlag) :
    (s.setFlag i pos f).flags i = Function.update (s.flags i) pos f :=
  Function.update_self _ _ _

end Frame

/-- A step that only changes what the producer is at. -/
theorem Inv.goto_step (h : Inv job s g) (hi : i < job.numThreads) (pc : ProducerPc D)
    (hf : Frame s s' i { s.producers i with pc }) (hflags : s'.flags i = s.flags i)
    (hphase : phase job.endPfn pc = phase job.endPfn (s.producers i).pc)
    (hroom : HasRoom (g.queue i) pc)
    (hflag : FlagOk (s.flags i (s.producers i).pos) (s.producers i).index pc)
    (hcoming : coming pc = coming (s.producers i).pc)
    (hsem : s'.sem + unposted pc = s.sem + unposted (s.producers i).pc)
    (hmutex : s'.pfnMutex = s.pfnMutex)
    (hcur : s'.currentPfn = s.currentPfn ∨
      job.endPfn ≤ s.currentPfn ∧ s'.currentPfn = job.endPfn) : Inv job s' g := by
  refine h.silent_step hi hf ?_ hcoming (by rw [hphase]) hsem hmutex hcur
  rw [hflags]
  exact (h.thread i hi).goto hphase hroom hflag

/-- The cell that the producer works at. -/
theorem ThreadOk.busy {p : Producer D} {f : Nat → PageFlag} {c pfn : Nat} {q : List (Slot D)}
    (h : ThreadOk job p f c q) (hphase : phase job.endPfn p.pc = .busy pfn) :
    ∃ l, q = l ++ [.filling pfn] ∧ (∀ x ∈ l, x.IsFull) ∧ p.pos = (c + l.length) % pageFlagNum ∧
      HoldsSlot job.endPfn (f p.pos) (.filling pfn : Slot D) := by
  have hshape := h.shape
  rw [hphase] at hshape
  obtain ⟨l, rfl, hfull, hpos⟩ := hshape
  exact ⟨l, rfl, hfull, hpos, hpos ▸ h.ring.holds_last⟩

/-- The producer writes to its cell what does not change what the cell holds. -/
theorem ThreadOk.setFlag {p : Producer D} {f : Nat → PageFlag} {c pfn : Nat} {q : List (Slot D)}
    (h : ThreadOk job p f c q) (hphase : phase job.endPfn p.pc = .busy pfn) (pc : ProducerPc D)
    {flag : PageFlag} (hpfn : flag.pfn = (f p.pos).pfn) (hready : flag.ready = (f p.pos).ready)
    (hphase' : phase job.endPfn pc = .busy pfn) (hroom : HasRoom q pc)
    (hflag : FlagOk flag p.index pc) :
    ThreadOk job { p with pc } (Function.update f p.pos flag) c q := by
  obtain ⟨l, rfl, -, hpos, hholds⟩ := h.busy hphase
  refine ⟨?_, ?_, hroom, h.index, ?_⟩
  · rw [hpos]
    exact h.ring.setLast ⟨hpfn.trans hholds.1, hready.trans hholds.2.1, hholds.2.2⟩
  · have hshape := h.shape
    rwa [hphase, ← hphase'] at hshape
  · simpa using hflag

/-- **The steps of a producer** keep the invariant. -/
theorem Inv.producer_step (h : Inv job s g) (hi : i < job.numThreads)
    (hbuf : job.numBuffers ≤ 2 ^ 15)
    {result : Option (Option D)} (hs : producerStep job s i result = some s') :
    Inv job s' (g.producerStep job.endPfn i (s.producers i)) := by
  have ht := h.thread i hi
  unfold producerStep at hs
  unfold Ghost.producerStep
  cases hpc : (s.producers i).pc with
  | lockData =>
    simp only [hpc] at hs ⊢
    split at hs
    case isTrue =>
      cases hs
      exact h.goto_step hi .probe ⟨rfl, fun _ _ => rfl, rfl, rfl, rfl⟩ rfl (by rw [hpc]; rfl)
        trivial
        trivial (by rw [hpc]; rfl) (by rw [hpc]; rfl) rfl (.inl rfl)
    case isFalse => cases hs
  | probe =>
    simp only [hpc] at hs ⊢
    split at hs
    case isTrue =>
      cases hs
      refine h.silent_step hi (frame_setProducer _ i _) ?_ (by simp only [hpc]) (by simp only [hpc])
        (by simp only [hpc]; rfl) rfl (.inl rfl)
      have hpos : 0 < job.numBuffers := Nat.mul_pos (by decide) (Nat.zero_lt_of_lt hi)
      have hshape := ht.shape
      rw [hpc] at hshape
      exact ⟨ht.ring, hshape, trivial, Nat.mod_lt _ hpos, trivial⟩
    case isFalse =>
      cases hs
      exact h.goto_step hi .claim ⟨rfl, fun _ _ => rfl, rfl, rfl, rfl⟩ rfl (by rw [hpc]; rfl)
        trivial
        trivial (by rw [hpc]; rfl) (by rw [hpc]; rfl) rfl (.inl rfl)
  | claim =>
    simp only [hpc] at hs ⊢
    cases hs
    exact h.goto_step hi .poll ⟨rfl, fun _ _ => rfl, rfl, rfl, rfl⟩ rfl (by rw [hpc]; rfl) trivial
      trivial (by rw [hpc]; rfl) (by rw [hpc]; rfl) rfl (.inl rfl)
  | poll =>
    simp only [hpc] at hs ⊢
    split at hs
    case isTrue =>
      cases hs
      exact h
    case isFalse hready =>
      cases hs
      exact h.goto_step hi .take ⟨rfl, fun _ _ => rfl, rfl, rfl, rfl⟩ rfl (by rw [hpc]; rfl)
        (ht.has_room (by rw [hpc]; rfl) hready)
        trivial (by rw [hpc]; rfl) (by rw [hpc]; rfl) rfl (.inl rfl)
  | take =>
    simp only [hpc] at hs ⊢
    split at hs
    case isTrue hmutex =>
      cases hs
      exact h.take_step hi hpc hmutex
    case isFalse => cases hs
  | mark pfn =>
    simp only [hpc] at hs ⊢
    cases hs
    refine h.silent_step hi (frame_setFlag _ i _ _ _) ?_ (by rw [hpc]; rfl) (by rw [hpc]; rfl)
      (by rw [hpc]; rfl) rfl (.inl rfl)
    have hshape := ht.shape
    have hroom := ht.room
    rw [hpc] at hshape hroom
    have hfree := ht.ring.free _ (Nat.le_refl _) hroom
    rw [← hshape.2] at hfree
    refine ⟨?_, hshape, hroom, ht.index, ?_⟩
    · simp only [State.setProducer, setFlag_flags]
      rw [hshape.2]
      exact ht.ring.setFree hroom (hshape.2 ▸ hfree)
    · simp [State.setProducer, State.setFlag, FlagOk]
  | fill pfn =>
    simp only [hpc] at hs ⊢
    cases hs
    have hshape := ht.shape
    have hroom := ht.room
    have hflag := ht.flag
    rw [hpc] at hshape hroom hflag
    have hframe : Frame s (({ s with pfnMutex := none }.setFlag i (s.producers i).pos
        { s.flags i (s.producers i).pos with ready := .filling }).setProducer i
        { s.producers i with pc := .post pfn }) i { s.producers i with pc := .post pfn } :=
      ⟨rfl, fun _ hj => Function.update_of_ne hj _ _, rfl, rfl, rfl⟩
    by_cases hlt : pfn < job.endPfn
    · rw [if_pos hlt]
      refine h.fill_step hi hpc hframe rfl rfl rfl rfl ?_ (.inl ⟨hlt, rfl, rfl⟩)
      refine ⟨?_, ?_, trivial, ht.index, trivial⟩
      · simp only [State.setProducer, setFlag_flags]
        rw [hshape.2]
        exact ht.ring.push hroom ⟨hshape.2 ▸ hflag, rfl, hlt⟩
      · rw [phase, if_neg (Nat.not_le.mpr hlt)]
        exact ⟨g.queue i, rfl, hshape.1, hshape.2⟩
    · rw [if_neg hlt]
      refine h.fill_end hi hpc hframe rfl rfl rfl rfl (Nat.not_lt.mp hlt) ?_
      refine ⟨?_, ?_, trivial, ht.index, trivial⟩
      · simp only [State.setProducer, setFlag_flags]
        rw [hshape.2]
        refine ht.ring.push hroom ⟨?_, rfl⟩
        rw [← hshape.2, hflag]
        exact Nat.not_lt.mp hlt
      · rw [phase, if_pos (Nat.not_lt.mp hlt)]
        exact .inr ⟨g.queue i, rfl, hshape.1⟩
  | post pfn =>
    simp only [hpc] at hs ⊢
    cases hs
    by_cases hle : job.endPfn ≤ pfn
    · simp only [if_pos hle]
      have hphase : phase job.endPfn (.post pfn : ProducerPc D) = .ended := if_pos hle
      exact h.goto_step hi .setEnd ⟨rfl, fun _ _ => rfl, rfl, rfl, rfl⟩ rfl
        (by rw [hpc, hphase]; rfl) trivial
        trivial (by rw [hpc]; rfl) (by rw [hpc]; rfl) rfl (.inl rfl)
    · simp only [if_neg hle]
      have hphase : phase job.endPfn (.post pfn : ProducerPc D) = .busy pfn := if_neg hle
      exact h.goto_step hi (.produce pfn) ⟨rfl, fun _ _ => rfl, rfl, rfl, rfl⟩ rfl
        (by rw [hpc, hphase]; rfl) trivial
        trivial (by rw [hpc]; rfl) (by rw [hpc]; rfl) rfl (.inl rfl)
  | setEnd =>
    simp only [hpc] at hs ⊢
    cases hs
    exact h.goto_step hi .giveBack ⟨rfl, fun _ _ => rfl, rfl, rfl, rfl⟩ rfl (by rw [hpc]; rfl)
      trivial
      trivial (by rw [hpc]; rfl) (by rw [hpc]; rfl) rfl
      (.inr ⟨h.atEnd i hi (by rw [hpc]; rfl), rfl⟩)
  | giveBack =>
    simp only [hpc] at hs ⊢
    cases hs
    exact h.goto_step hi .done ⟨rfl, fun _ _ => rfl, rfl, rfl, rfl⟩ rfl (by rw [hpc]; rfl) trivial
      trivial (by rw [hpc]; rfl) (by rw [hpc]; rfl) rfl (.inl rfl)
  | produce pfn =>
    simp only [hpc] at hs ⊢
    cases result with
    | none =>
      cases hs
      refine h.silent_step hi (frame_setProducer _ i _) ?_ (by rw [hpc]; rfl)
        (by rw [hpc]; simp [phase]) (by rw [hpc]; rfl) rfl (.inl rfl)
      obtain ⟨l, hq, hfull, -, -⟩ := ht.busy (by rw [hpc]; rfl)
      exact ⟨ht.ring, ⟨l, .inr ⟨pfn, hq⟩, hfull⟩, trivial, ht.index, trivial⟩
    | some page =>
      cases hs
      exact h.goto_step hi (.setZero pfn page) ⟨rfl, fun _ _ => rfl, rfl, rfl, rfl⟩ rfl
        (by rw [hpc]; rfl) trivial
        trivial (by rw [hpc]; rfl) (by rw [hpc]; rfl) rfl (.inl rfl)
  | setZero pfn page =>
    simp only [hpc] at hs ⊢
    cases hs
    cases page with
    | none =>
      refine h.silent_step hi (frame_setFlag _ i _ _ _) ?_ (by rw [hpc]; rfl)
        (by rw [hpc]; simp [phase]) (by rw [hpc]; rfl) rfl (.inl rfl)
      simp only [State.setProducer, setFlag_flags]
      exact ht.setFlag (by rw [hpc]; rfl) (.publish pfn none) rfl rfl rfl trivial rfl
    | some data =>
      refine h.silent_step hi (frame_setFlag _ i _ _ _) ?_ (by rw [hpc]; rfl)
        (by rw [hpc]; simp [phase]) (by rw [hpc]; rfl) rfl (.inl rfl)
      simp only [State.setProducer, setFlag_flags]
      exact ht.setFlag (by rw [hpc]; rfl) (.copy pfn data) rfl rfl rfl trivial rfl
  | copy pfn data =>
    simp only [hpc] at hs ⊢
    cases hs
    have hflag := ht.flag
    rw [hpc] at hflag
    exact h.goto_step hi (.setIndex pfn data) ⟨rfl, fun _ _ => rfl, rfl, rfl, rfl⟩ rfl
      (by rw [hpc]; rfl) trivial
      hflag (by rw [hpc]; rfl) (by rw [hpc]; rfl) rfl (.inl rfl)
  | setIndex pfn data =>
    simp only [hpc] at hs ⊢
    cases hs
    have hflag := ht.flag
    rw [hpc] at hflag
    refine h.silent_step hi (frame_setFlag _ i _ _ _) ?_ (by rw [hpc]; rfl)
      (by rw [hpc]; simp [phase]) (by rw [hpc]; rfl) rfl (.inl rfl)
    simp only [State.setProducer, setFlag_flags]
    have hshort := toShort_of_lt (Nat.lt_of_lt_of_le ht.index hbuf)
    refine ht.setFlag (by rw [hpc]; rfl) (.publish pfn (some data)) rfl rfl rfl trivial ?_
    refine ⟨hflag, ?_⟩
    dsimp only
    exact hshort
  | publish pfn page =>
    simp only [hpc] at hs ⊢
    cases hs
    have hflag := ht.flag
    rw [hpc] at hflag
    obtain ⟨l, hq, hfull, hpos, hpfn, hready, hlt⟩ := ht.busy (by rw [hpc]; rfl)
    rw [hq, List.dropLast_concat]
    refine h.local_step hi (frame_setFlag _ i _ _ _) ?_ (by simp [hq, Slot.pfn])
      (by rw [hpc]; cases page <;> rfl) (by rw [hpc]; cases page <;> simp [phase])
      (fun hp => by cases page <;> cases hp) (by rw [hpc]; cases page <;> rfl) rfl (.inl rfl) ?_
    · have hring := ht.ring
      rw [hq] at hring
      refine ⟨?_, ?_, by cases page <;> trivial, ht.index, by cases page <;> trivial⟩
      · simp only [State.setProducer, setFlag_flags]
        rw [hpos]
        refine hring.setLast ?_
        rw [← hpos]
        cases page with
        | none => exact ⟨hpfn, rfl, hflag, hlt⟩
        | some data => exact ⟨hpfn, rfl, hflag.1, hflag.2, hlt⟩
      · have hidle : phase job.endPfn (if page.isNone = true then .poll else .lockData : ProducerPc
          D) =
            .idle := by cases page <;> rfl
        simp only [hidle]
        refine ⟨fun x hx => ?_, ?_⟩
        · rcases List.mem_append.mp hx with hx | hx
          · exact hfull x hx
          · rw [List.mem_singleton.mp hx]
            trivial
        · rw [hpos, nextFlag_pos, List.length_append]
          rfl
    · refine ⟨.inl rfl, ?_, ?_, ?_⟩
      · intro n q page' l' hn
        by_cases hni : n = i
        · subst hni
          rw [hq] at hn
          cases l with
          | nil => cases hn
          | cons y l =>
            cases hn
            refine ⟨l ++ [.full pfn (page.map fun data => ((s.producers n).index, data))], ?_⟩
            simp
        · exact ⟨l', by simpa [Function.update_of_ne hni] using hn⟩
      · intro n hn
        by_cases hni : n = i
        · subst hni
          simp
        · simpa [Function.update_of_ne hni] using hn
      · intro n hn
        by_cases hni : n = i
        · subst hni
          rw [hq] at hn
          cases l with
          | nil => cases hn
          | cons y l => simp at hn
        · simpa [Function.update_of_ne hni] using hn
  | done =>
    simp only [hpc] at hs
    cases hs
  | left =>
    simp only [hpc] at hs
    cases hs

/-! ## Steps of the consumer -/

/-- What a step of the consumer does to the rings. -/
def Ghost.consumerStep (g : Ghost D) : ConsumerPc → Ghost D
  | .unmark i _ _ => { g with queue := Function.update g.queue i [] }
  | .unuse i =>
    { queue := Function.update g.queue i (g.queue i).tail
      pending := g.pending.tail
      eaten := g.eaten ++ (g.pending.head?.map Prod.snd).toList }
  | _ => g

/-- A step of the consumer that leaves the rings as they are. -/
theorem Inv.consumer_goto (h : Inv job s g) (hproducers : s'.producers = s.producers)
    (hflags : s'.flags = s.flags) (hrings : s'.rings = s.rings) (hend : s'.endCount = s.endCount)
    (hmutex : s'.pfnMutex = s.pfnMutex) (hcur : s'.currentPfn = s.currentPfn)
    (hsem : s'.sem + past s'.consumer = s.sem + past s.consumer)
    (hc : ConsumerOk job g s'.endCount s'.consumer) : Inv job s' g := by
  have hcoming : s'.comingPages job.endPfn = s.comingPages job.endPfn := by
    simp only [State.comingPages, hmutex, hproducers]
  constructor
  case start => exact hcur ▸ h.start
  case thread => simpa only [hproducers, hflags, hrings] using h.thread
  case pending => exact h.pending
  case inside => exact h.inside
  case mutex => simpa only [hproducers, hmutex] using h.mutex
  case holder => simpa only [hproducers, hmutex] using h.holder
  case order => simpa only [hcoming, hcur] using h.order
  case sem => simpa only [hproducers, hsem] using h.sem
  case endCount => simpa only [hproducers, hend] using h.endCount
  case atEnd => simpa only [hproducers, hcur] using h.atEnd
  case comingEnd => simpa only [hproducers, hcur] using h.comingEnd
  case alone => simpa only [hproducers] using h.alone
  case consumer => exact hc

theorem Inv.pending_sorted (h : Inv job s g) : (g.pending.map Prod.snd).Pairwise (· < ·) := by
  have hall := pagesBelow_sorted job s.currentPfn
  rw [← h.order] at hall
  exact (List.pairwise_append.mp (List.pairwise_append.mp hall).1).2.1

theorem Inv.pending_lt (h : Inv job s g) {e : Nat × Nat}
    (he : e ∈ g.pending) : e.2 < job.endPfn := by
  have hmem : e.2 ∈ job.pagesBelow s.currentPfn := by
    rw [← h.order]
    simp only [List.mem_append, List.mem_map]
    exact .inl (.inr ⟨e, he, rfl⟩)
  exact (mem_pagesBelow hmem).2

/-- The pages of a ring are pending. -/
theorem Inv.mem_pending (h : Inv job s g) {n : Nat} (hn : n < job.numThreads) {x : Slot D}
    (hx : x ∈ g.queue n) {pfn : Nat} (hpfn : x.pfn = some pfn) : (n, pfn) ∈ g.pending := by
  have hmem : pfn ∈ (g.queue n).filterMap Slot.pfn := List.mem_filterMap.mpr ⟨x, hx, hpfn⟩
  rw [h.pending n hn] at hmem
  obtain ⟨e, he, rfl⟩ := List.mem_map.mp hmem
  obtain ⟨he, hen⟩ := List.mem_filter.mp he
  have : e.1 = n := by simpa using hen
  exact this ▸ he

/-- Behind a mark there is nothing. -/
theorem ThreadOk.nil_of_mark {p : Producer D} {f : Nat → PageFlag} {c : Nat} {q : List (Slot D)}
    (h : ThreadOk job p f c (.mark :: q)) : q = [] := by
  have hlast : ∀ {l : List (Slot D)} {x}, .mark :: q = l ++ [x] → (∀ y ∈ l, y.IsFull) → q = [] := by
    intro l x hl hfull
    cases l with
    | nil =>
      cases hl
      rfl
    | cons y l =>
      cases hl
      exact (show False from hfull .mark List.mem_cons_self).elim
  have hshape := h.shape
  cases hp : phase job.endPfn p.pc with
  | idle =>
    rw [hp] at hshape
    exact (show False from hshape.1 .mark List.mem_cons_self).elim
  | busy pfn =>
    rw [hp] at hshape
    obtain ⟨l, hl, hfull, -⟩ := hshape
    exact hlast hl hfull
  | ended =>
    rw [hp] at hshape
    obtain hl | ⟨l, hl, hfull⟩ := hshape
    · cases hl
    · exact hlast hl hfull
  | left =>
    rw [hp] at hshape
    obtain ⟨l, hl | ⟨pfn, hl⟩, hfull⟩ := hshape
    · exact (show False from hfull .mark (hl ▸ List.mem_cons_self)).elim
    · exact hlast hl hfull

theorem ThreadOk.nil_of_unused {p : Producer D} {f : Nat → PageFlag} {c : Nat} {q : List (Slot D)}
    (h : ThreadOk job p f c q) (hready : (f c).ready = .unused) : q = [] := by
  cases q with
  | nil => rfl
  | cons x q =>
    have hholds := h.ring.holds_head
    cases x with
    | filling pfn => exact absurd (hready.symm.trans hholds.2.1) (by decide)
    | mark => exact absurd (hready.symm.trans hholds.2) (by decide)
    | full pfn page =>
      cases page with
      | none => exact absurd (hready.symm.trans hholds.2.1) (by decide)
      | some b => exact absurd (hready.symm.trans hholds.2.1) (by decide)

theorem HoldsSlot.pfn_eq {endPfn pfn : Nat} {f : PageFlag} {x : Slot D} (h : HoldsSlot endPfn f x)
    (hx : x.pfn = some pfn) : f.pfn = pfn ∧ pfn < endPfn := by
  cases x with
  | mark => cases hx
  | filling q =>
    cases hx
    exact ⟨h.1, h.2.2⟩
  | full q page =>
    cases hx
    cases page with
    | none => exact ⟨h.1, h.2.2.2⟩
    | some b => exact ⟨h.1, h.2.2.2.2⟩

/-- The first page is at the front of its ring. -/
theorem Inv.front (h : Inv job s g) {t pfn : Nat} {rest : List (Nat × Nat)}
    (hp : g.pending = (t, pfn) :: rest) :
    t < job.numThreads ∧ ∃ x l, g.queue t = x :: l ∧ x.pfn = some pfn := by
  have ht : t < job.numThreads := h.inside (t, pfn) (hp ▸ List.mem_cons_self)
  refine ⟨ht, ?_⟩
  have hpages := h.pending t ht
  rw [hp, List.filter_cons_of_pos (by simp), List.map_cons] at hpages
  cases hq : g.queue t with
  | nil =>
    rw [hq] at hpages
    cases hpages
  | cons x l =>
    refine ⟨x, l, rfl, ?_⟩
    rw [hq] at hpages
    cases x with
    | filling q =>
      simp only [Slot.pfn, List.filterMap_cons] at hpages
      exact congrArg some (List.cons.inj hpages).1
    | full q page =>
      simp only [Slot.pfn, List.filterMap_cons] at hpages
      exact congrArg some (List.cons.inj hpages).1
    | mark =>
      have hmark := h.thread t ht
      rw [hq] at hmark
      rw [hmark.nil_of_mark] at hpages
      cases hpages

theorem Inv.seen_zero (h : Inv job s g) : Seen job g 0 job.endPfn 0 := by
  unfold Seen
  cases hp : g.pending with
  | nil => exact ⟨rfl, rfl⟩
  | cons e rest => exact h.pending_lt (hp ▸ List.mem_cons_self)

/-- A thread whose ring has no page at the front is passed. -/
theorem Inv.seen_skip (h : Inv job s g) {n current consuming : Nat}
    (hs : Seen job g n current consuming) (hno : ∀ x l, g.queue n = x :: l → x.pfn = none) :
    Seen job g (n + 1) current consuming := by
  unfold Seen at hs ⊢
  cases hp : g.pending with
  | nil => rwa [hp] at hs
  | cons e rest =>
    obtain ⟨t, pfn⟩ := e
    rw [hp] at hs
    obtain ⟨-, x, l, hq, hx⟩ := h.front hp
    have hne : t ≠ n := by
      rintro rfl
      rw [hno x l hq] at hx
      cases hx
    dsimp only at hs ⊢
    by_cases hlt : t < n
    · rw [if_pos hlt] at hs
      rwa [if_pos (Nat.lt_succ_of_lt hlt)]
    · rw [if_neg hlt] at hs
      rwa [if_neg (by omega)]

/-- The consumer looks at a page. -/
theorem Inv.seen_look (h : Inv job s g) {n current consuming pfn : Nat} {x : Slot D}
    {l : List (Slot D)} (hn : n < job.numThreads) (hs : Seen job g n current consuming)
    (hq : g.queue n = x :: l) (hx : x.pfn = some pfn) :
    if current < pfn then Seen job g (n + 1) current consuming else Seen job g (n + 1) pfn n := by
  have hmem := h.mem_pending hn (hq ▸ List.mem_cons_self) hx
  unfold Seen at hs ⊢
  cases hp : g.pending with
  | nil =>
    rw [hp] at hmem
    cases hmem
  | cons e rest =>
    obtain ⟨t, first⟩ := e
    rw [hp] at hs hmem
    obtain ⟨-, y, l', hq', hy⟩ := h.front hp
    have hsorted := h.pending_sorted
    rw [hp, List.map_cons, List.pairwise_cons] at hsorted
    have hcase : t = n ∧ first = pfn ∨ t ≠ n ∧ first < pfn := by
      by_cases ht : t = n
      · subst ht
        rw [hq] at hq'
        cases hq'
        rw [hx] at hy
        exact .inl ⟨rfl, (Option.some.inj hy).symm⟩
      · rcases List.mem_cons.mp hmem with he | he
        · exact absurd (congrArg Prod.fst he).symm ht
        · exact .inr ⟨ht, hsorted.1 pfn (List.mem_map.mpr ⟨_, he, rfl⟩)⟩
    dsimp only at hs ⊢
    rcases hcase with ⟨rfl, rfl⟩ | ⟨hne, hlt⟩
    · rw [if_neg (Nat.lt_irrefl t)] at hs
      rw [if_neg (by omega), if_pos (Nat.lt_succ_self t)]
      exact ⟨rfl, rfl⟩
    · by_cases htn : t < n
      · rw [if_pos htn] at hs
        rw [if_pos (by omega), if_pos (by omega)]
        exact hs
      · rw [if_neg htn] at hs
        have htn' : ¬ t < n + 1 := by omega
        simp only [if_neg htn']
        split
        · exact hs
        · exact hlt

/-- After all threads the first page is found, and ready pages are only found there. -/
theorem Inv.front_of_check (h : Inv job s g) {current consuming : Nat} (hwait : s.consumer ≠ .wait)
    (hs : Seen job g job.numThreads current consuming)
    (hready : (s.flags consuming (s.rings consuming)).ready = .ready) :
    ∃ page, Front g consuming page := by
  unfold Seen at hs
  cases hp : g.pending with
  | nil =>
    rw [hp] at hs
    obtain ⟨-, rfl⟩ := hs
    rcases h.pending_or_ended hwait with hne | ⟨j, hj, -⟩
    · exact absurd hp hne
    · have h0 : 0 < job.numThreads := Nat.zero_lt_of_lt hj
      have hthread := h.thread 0 h0
      cases hq : g.queue 0 with
      | nil =>
        rw [hq] at hthread
        exact absurd (hready.symm.trans hthread.ring.free_start) (by decide)
      | cons x l =>
        have hholds := (hq ▸ hthread.ring).holds_head
        have hnone : x.pfn = none := by
          by_contra hne
          obtain ⟨pfn, hpfn⟩ := Option.ne_none_iff_exists'.mp hne
          have := h.mem_pending h0 (hq ▸ List.mem_cons_self) hpfn
          rw [hp] at this
          cases this
        cases x with
        | mark => exact absurd (hready.symm.trans hholds.2) (by decide)
        | filling pfn => cases hnone
        | full pfn page => cases hnone
  | cons e rest =>
    obtain ⟨t, pfn⟩ := e
    obtain ⟨ht, x, l, hq, hx⟩ := h.front hp
    rw [hp] at hs
    dsimp only at hs
    rw [if_pos ht] at hs
    obtain ⟨-, rfl⟩ := hs
    have hholds := (hq ▸ (h.thread consuming ht).ring).holds_head
    cases x with
    | mark => cases hx
    | filling q => exact absurd (hready.symm.trans hholds.2.1) (by decide)
    | full q page =>
      cases hx
      exact ⟨page, pfn, rest, l, hp, hq⟩

/-- The mark of a producer is taken and counted. -/
theorem Inv.unmark_step (h : Inv job s g) {i current consuming : Nat}
    (hpc : s.consumer = .unmark i current consuming) :
    Inv job { s.setFlag i (s.rings i) { s.flags i (s.rings i) with ready := .unused } with
      endCount := s.endCount + 1, consumer := .scan (i + 1) current consuming }
      { g with queue := Function.update g.queue i [] } := by
  have hc := h.consumer
  rw [hpc] at hc
  obtain ⟨hi, hseen, hq⟩ := hc
  have hthread := h.thread i hi
  rw [hq] at hthread
  have hended := hthread.ended_of_mark
  have hskip : Seen job g (i + 1) current consuming := by
    refine h.seen_skip hseen fun x l hx => ?_
    rw [hq] at hx
    cases hx
    rfl
  constructor
  case start => exact h.start
  case thread =>
    intro j hj
    by_cases hji : j = i
    · subst hji
      simpa [State.setFlag] using hthread.clear
    · simpa [State.setFlag, Function.update_of_ne hji] using h.thread j hj
  case pending =>
    intro j hj
    have hold := h.pending j hj
    by_cases hji : j = i
    · subst hji
      rw [hq] at hold
      simp only [Function.update_self]
      exact hold
    · simpa [Function.update_of_ne hji] using hold
  case inside => exact h.inside
  case mutex => exact h.mutex
  case holder => exact h.holder
  case order => exact h.order
  case sem =>
    have hsem := h.sem
    rw [hpc] at hsem
    exact hsem
  case endCount =>
    have h1 := sum_change hi (F := fun j => counted job.endPfn (s.producers j).pc
        (Function.update g.queue i [] j))
      (G := fun j => counted job.endPfn (s.producers j).pc (g.queue j)) fun j _ hj => by
        rw [Function.update_of_ne hj]
    have hnew : counted job.endPfn (s.producers i).pc ([] : List (Slot D)) = 1 := by
      simp [counted, hended]
    have hold : counted job.endPfn (s.producers i).pc ([.mark] : List (Slot D)) = 0 := by
      simp [counted]
    simp only [Function.update_self, hq, hnew, hold] at h1
    have h2 := h.endCount
    simp only [State.setFlag]
    omega
  case atEnd => exact h.atEnd
  case comingEnd => exact h.comingEnd
  case alone => exact h.alone
  case consumer => exact ⟨hi, hskip⟩

/-- The page that was written is done with. -/
theorem Inv.unuse_step (h : Inv job s g) {t : Nat} (hpc : s.consumer = .unuse t) :
    Inv job { s.setFlag t (s.rings t) { s.flags t (s.rings t) with ready := .unused } with
      rings := Function.update s.rings t (nextFlag (s.rings t)), consumer := .wait }
      (g.consumerStep (.unuse t)) := by
  have hc := h.consumer
  rw [hpc] at hc
  obtain ⟨page, pfn, rest, l, hp, hq⟩ := hc
  have ht : t < job.numThreads := h.inside (t, pfn) (hp ▸ List.mem_cons_self)
  have hthread := h.thread t ht
  rw [hq] at hthread
  have hghost : g.consumerStep (.unuse t) =
      { queue := Function.update g.queue t l, pending := rest, eaten := g.eaten ++ [pfn] } := by
    simp [Ghost.consumerStep, hp, hq]
  rw [hghost]
  constructor
  case start => exact h.start
  case thread =>
    intro j hj
    by_cases hji : j = t
    · subst hji
      simpa [State.setFlag] using hthread.pop
    · simpa [State.setFlag, Function.update_of_ne hji] using h.thread j hj
  case pending =>
    intro j hj
    have hold := h.pending j hj
    rw [hp] at hold
    by_cases hji : j = t
    · subst hji
      rw [hq, List.filter_cons_of_pos (by simp)] at hold
      simpa [Slot.pfn] using hold
    · rw [List.filter_cons_of_neg (by simpa using Ne.symm hji)] at hold
      simpa [Function.update_of_ne hji] using hold
  case inside => exact fun e he => h.inside e (hp ▸ List.mem_cons_of_mem _ he)
  case mutex => exact h.mutex
  case holder => exact h.holder
  case order =>
    have ho := h.order
    rw [hp] at ho
    change g.eaten ++ [pfn] ++ rest.map Prod.snd ++ s.comingPages job.endPfn =
      job.pagesBelow s.currentPfn
    simpa using ho
  case sem =>
    have hsem := h.sem
    rw [hpc, hp, List.length_cons] at hsem
    simp only [past] at hsem ⊢
    simp only [State.setFlag]
    omega
  case endCount =>
    refine h.endCount.trans (Finset.sum_congr rfl fun j _ => ?_)
    by_cases hjt : j = t
    · subst hjt
      -- a producer that has reached the end has its mark in the ring
      have hnil : phase job.endPfn (s.producers j).pc = .ended → l ≠ [] := by
        rintro hended rfl
        have hshape := hthread.shape
        rw [hended] at hshape
        obtain hnil | ⟨l', hl, -⟩ := hshape
        · cases hnil
        · cases l' with
          | nil => cases hl
          | cons y l' =>
            have := congrArg List.length hl
            simp at this
      by_cases hended : phase job.endPfn (s.producers j).pc = .ended
      · simp [counted, State.setFlag, hq, hnil hended]
      · simp [counted, State.setFlag, hended]
    · simp [counted, State.setFlag, Function.update_of_ne hjt]
  case atEnd => exact h.atEnd
  case comingEnd => exact h.comingEnd
  case alone => exact h.alone
  case consumer => trivial

/-- **The steps of the consumer** keep the invariant. -/
theorem Inv.consumer_step (h : Inv job s g) {fails : Bool}
    (hs : consumerStep job s fails = some s') : Inv job s' (g.consumerStep s.consumer) := by
  have hc := h.consumer
  unfold consumerStep at hs
  cases hpc : s.consumer with
  | wait =>
    simp only [hpc] at hs
    split at hs
    case isTrue hpos =>
      cases hs
      refine h.consumer_goto rfl rfl rfl rfl rfl rfl ?_ ⟨Nat.zero_le _, h.seen_zero⟩
      rw [hpc]
      simp only [past]
      omega
    case isFalse => cases hs
  | scan i current consuming =>
    rw [hpc] at hc
    obtain ⟨hle, hseen⟩ := hc
    simp only [hpc] at hs
    split at hs
    case isTrue hi =>
      split at hs
      case isTrue hunused =>
        cases hs
        have hnil := (h.thread i hi).nil_of_unused hunused
        refine h.consumer_goto rfl rfl rfl rfl rfl rfl (by rw [hpc]; rfl) ⟨hi, ?_⟩
        refine h.seen_skip hseen fun x l hq => ?_
        rw [hnil] at hq
        cases hq
      case isFalse hused =>
        cases hs
        refine h.consumer_goto rfl rfl rfl rfl rfl rfl (by rw [hpc]; rfl) ⟨hi, hseen, ?_⟩
        intro hnil
        exact hused (hnil ▸ (h.thread i hi).ring).free_start
    case isFalse hi =>
      split at hs
      case isTrue hend =>
        cases hs
        exact h.consumer_goto rfl rfl rfl rfl rfl rfl (by rw [hpc]; rfl) hend
      case isFalse =>
        cases hs
        obtain rfl : i = job.numThreads := Nat.le_antisymm hle (Nat.not_lt.mp hi)
        exact h.consumer_goto rfl rfl rfl rfl rfl rfl (by rw [hpc]; rfl) hseen
  | look i current consuming =>
    rw [hpc] at hc
    obtain ⟨hi, hseen, hne⟩ := hc
    simp only [hpc] at hs
    obtain ⟨x, l, hq⟩ := List.exists_cons_of_ne_nil hne
    have hthread := h.thread i hi
    rw [hq] at hthread
    have hholds := hthread.ring.holds_head
    cases hx : x.pfn with
    | none =>
      cases x with
      | filling pfn => cases hx
      | full pfn page => cases hx
      | mark =>
        rw [if_pos hholds.1] at hs
        cases hs
        rw [hthread.nil_of_mark] at hq
        exact h.consumer_goto rfl rfl rfl rfl rfl rfl (by rw [hpc]; rfl) ⟨hi, hseen, hq⟩
    | some pfn =>
      obtain ⟨hpfn, hlt⟩ := hholds.pfn_eq hx
      rw [hpfn, if_neg (Nat.not_le.mpr hlt)] at hs
      have hlook := h.seen_look hi hseen hq hx
      split at hs
      case isTrue hcur =>
        cases hs
        rw [if_pos hcur] at hlook
        exact h.consumer_goto rfl rfl rfl rfl rfl rfl (by rw [hpc]; rfl) ⟨hi, hlook⟩
      case isFalse hcur =>
        cases hs
        rw [if_neg hcur] at hlook
        exact h.consumer_goto rfl rfl rfl rfl rfl rfl (by rw [hpc]; rfl) ⟨hi, hlook⟩
  | unmark i current consuming =>
    simp only [hpc] at hs
    cases hs
    exact h.unmark_step hpc
  | check current consuming =>
    rw [hpc] at hc
    simp only [hpc] at hs
    split at hs
    case isTrue hready =>
      cases hs
      refine h.consumer_goto rfl rfl rfl rfl rfl rfl (by rw [hpc]; rfl) ⟨hc, ?_⟩
      exact h.front_of_check (by rw [hpc]; simp) hc hready
    case isFalse =>
      split at hs
      · cases hs
        exact h.consumer_goto rfl rfl rfl rfl rfl rfl (by rw [hpc]; rfl) trivial
      · cases hs
        exact h.consumer_goto rfl rfl rfl rfl rfl rfl (by rw [hpc]; rfl)
          ⟨Nat.zero_le _, h.seen_zero⟩
  | confirm current consuming =>
    rw [hpc] at hc
    simp only [hpc] at hs
    split at hs
    · cases hs
      exact h.consumer_goto rfl rfl rfl rfl rfl rfl (by rw [hpc]; rfl) hc.2
    · cases hs
      exact h.consumer_goto rfl rfl rfl rfl rfl rfl (by rw [hpc]; rfl) ⟨Nat.zero_le _, h.seen_zero⟩
  | readZero consuming =>
    rw [hpc] at hc
    simp only [hpc] at hs
    split at hs
    case isTrue =>
      split at hs
      · cases hs
        exact h.consumer_goto rfl rfl rfl rfl rfl rfl (by rw [hpc]; rfl) trivial
      · cases hs
        exact h.consumer_goto rfl rfl rfl rfl rfl rfl (by rw [hpc]; rfl) hc
    case isFalse hzero =>
      cases hs
      refine h.consumer_goto rfl rfl rfl rfl rfl rfl (by rw [hpc]; rfl) ?_
      obtain ⟨page, pfn, rest, l, hp, hq⟩ := hc
      have ht : consuming < job.numThreads := h.inside (consuming, pfn) (hp ▸ List.mem_cons_self)
      have hholds := (hq ▸ (h.thread consuming ht).ring).holds_head
      cases page with
      | none => exact absurd hholds.2.2.1 hzero
      | some x => exact ⟨x, pfn, rest, l, hp, hq⟩
  | readIndex consuming =>
    rw [hpc] at hc
    simp only [hpc] at hs
    cases hs
    refine h.consumer_goto rfl rfl rfl rfl rfl rfl (by rw [hpc]; rfl) ?_
    obtain ⟨⟨b, data⟩, pfn, rest, l, hp, hq⟩ := hc
    have ht : consuming < job.numThreads := h.inside (consuming, pfn) (hp ▸ List.mem_cons_self)
    have hholds := (hq ▸ (h.thread consuming ht).ring).holds_head
    exact ⟨b, data, ⟨pfn, rest, l, hp, hq⟩, hholds.2.2.2.1⟩
  | write consuming index =>
    rw [hpc] at hc
    simp only [hpc] at hs
    split at hs
    · cases hs
      exact h.consumer_goto rfl rfl rfl rfl rfl rfl (by rw [hpc]; rfl) trivial
    · cases hs
      exact h.consumer_goto rfl rfl rfl rfl rfl rfl (by rw [hpc]; rfl) hc
  | release consuming index =>
    rw [hpc] at hc
    simp only [hpc] at hs
    cases hs
    obtain ⟨b, data, hfront, -⟩ := hc
    exact h.consumer_goto rfl rfl rfl rfl rfl rfl (by rw [hpc]; rfl) ⟨some (b, data), hfront⟩
  | unuse consuming =>
    simp only [hpc] at hs
    cases hs
    exact h.unuse_step hpc
  | finished =>
    simp only [hpc] at hs
    cases hs
  | failed =>
    simp only [hpc] at hs
    cases hs

end Parallel
