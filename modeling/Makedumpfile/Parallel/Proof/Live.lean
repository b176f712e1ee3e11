import Makedumpfile.Parallel.Proof.Data
import Mathlib.Data.Finset.Card

/-!
# The threads do not block each other

From every state that is reached the threads can finish the cycle, unless one of them has failed
(`can_finish`). The work of the producers (`work`) gets less with each of their steps but when one
looks for a free buffer or for a free `page_flag`. As long as a page is pending, the producer that
has the first one works at it, or the page is ready and the consumer finds and writes it. When no
page is pending, no buffer is in use but those of the producers themselves, and no `page_flag` is
taken.
-/

namespace Parallel

open Lib

variable {D : Type} {job : Job} {s s' : State D} {i : Nat} {g g' : Ghost D}

/-! ## The buffers in use -/

/-- The producer has a buffer, or it left with one. -/
@[simp] def HasBuffer : ProducerPc D → Prop
  | .lockData | .probe | .claim | .done => False
  | _ => True

/-- The producer holds `page_data_mutex`. -/
@[simp] def Locking : ProducerPc D → Prop
  | .probe | .claim => True
  | _ => False

structure LiveInv (job : Job) (s : State D) (g : Ghost D) : Prop where
  locked : ∀ j, s.dataMutex = some j → j < job.numThreads ∧ Locking (s.producers j).pc
  used : ∀ b : Nat, (s.buffers b).used = true →
    (∃ j < job.numThreads, HasBuffer (s.producers j).pc ∧ (s.producers j).index = b) ∨
    ∃ j < job.numThreads, ∃ pfn data, .full pfn (some (b, data)) ∈ g.queue j ∧ freed s g ≠ some pfn

/-- A page that the consumer has given back is the first one, and remains it. -/
theorem Inv.freed_eq (h : Inv job s g) (hconsumer : s'.consumer = s.consumer)
    (hfront : ∀ n pfn page l, g.queue n = .full pfn page :: l →
      ∃ l', g'.queue n = .full pfn page :: l') : freed s' g' = freed s g := by
  have hc := h.consumer
  unfold freed
  rw [hconsumer]
  cases hpc : s.consumer with
  | unuse t =>
    rw [hpc] at hc
    obtain ⟨page, pfn, rest, l, -, hq⟩ := hc
    obtain ⟨l', hq'⟩ := hfront t pfn page l hq
    dsimp only
    rw [hq, hq']
    rfl
  | wait | scan | look | unmark | check | confirm | readZero | readIndex | write | release
      | finished
  | failed => rfl

/-- The first page of a ring is nowhere else. -/
theorem Inv.front_unique (h : Inv job s g) {t pfn : Nat} {page : Option (Nat × D)}
    {l : List (Slot D)}
    (ht : t < job.numThreads) (hq : g.queue t = .full pfn page :: l) {j : Nat}
    (hj : j < job.numThreads) {x : Slot D} (hx : x ∈ g.queue j) (hpfn : x.pfn = some pfn) :
    j = t ∧ x = .full pfn page := by
  have hnodup : (g.pending.map Prod.snd).Nodup := h.pending_sorted.imp Nat.ne_of_lt
  have hfirst := h.mem_pending ht (hq ▸ List.mem_cons_self)
    (rfl : (Slot.full pfn page).pfn = some pfn)
  obtain rfl : j = t := congrArg Prod.fst
    (List.inj_on_of_nodup_map hnodup (h.mem_pending hj hx hpfn) hfirst rfl)
  refine ⟨rfl, ?_⟩
  have hsub : ((g.queue j).filterMap Slot.pfn).Nodup := by
    rw [h.pending j hj]
    exact hnodup.sublist (List.filter_sublist.map _)
  rw [hq] at hsub hx
  rcases List.mem_cons.mp hx with hx | hx
  · exact hx
  · simp only [List.filterMap_cons, Slot.pfn, List.nodup_cons] at hsub
    exact absurd (List.mem_filterMap.mpr ⟨x, hx, hpfn⟩) hsub.1

theorem Inv.front_of_freed (h : Inv job s g) {pfn : Nat} (hf : freed s g = some pfn) :
    ∃ t < job.numThreads, ∃ page l, g.queue t = .full pfn page :: l := by
  have hc := h.consumer
  unfold freed at hf
  split at hf
  case h_1 t hpc =>
    rw [hpc] at hc
    obtain ⟨page, pfn', rest, l, hp, hq⟩ := hc
    rw [hq] at hf
    obtain rfl : pfn' = pfn := Option.some.inj hf
    exact ⟨t, h.inside (t, pfn') (hp ▸ List.mem_cons_self), page, l, hq⟩
  case h_2 => cases hf

theorem LiveInv.not_locked (h : LiveInv job s g) (hpc : ¬ Locking (s.producers i).pc) :
    s.dataMutex ≠ some i := fun hm => hpc (h.locked i hm).2

/-- A step of the producer `i`. -/
theorem LiveInv.producer_local (h : LiveInv job s g) (hinv : Inv job s g) (hi : i < job.numThreads)
    {p' : Producer D} (hf : Frame s s' i p')
    (hmutex : ∀ j ≠ i, s'.dataMutex = some j → s.dataMutex = some j)
    (hlock : s'.dataMutex = some i → Locking p'.pc)
    (hused : ∀ b : Nat, (s'.buffers b).used = true →
      (s.buffers b).used = true ∧ (HasBuffer (s.producers i).pc → (s.producers i).index = b →
        HasBuffer p'.pc ∧ p'.index = b ∨
          ∃ pfn data, .full pfn (some (b, data)) ∈ g'.queue i ∧ freed s g ≠ some pfn) ∨
      HasBuffer p'.pc ∧ p'.index = b)
    (hqueue : ∀ j pfn page, .full pfn page ∈ g.queue j → .full pfn page ∈ g'.queue j)
    (hfront : ∀ n pfn page l, g.queue n = .full pfn page :: l →
      ∃ l', g'.queue n = .full pfn page :: l') : LiveInv job s' g' := by
  have hfreed := hinv.freed_eq hf.consumer hfront
  constructor
  · intro j hj
    by_cases hji : j = i
    · subst hji
      rw [hf.self]
      exact ⟨hi, hlock hj⟩
    · rw [hf.other hji]
      exact h.locked j (hmutex j hji hj)
  · intro b hb
    rw [hfreed]
    rcases hused b hb with ⟨hold, hkeep⟩ | hnew
    · rcases h.used b hold with ⟨j, hj, hbuf, hindex⟩ | ⟨j, hj, pfn, data, hmem, hne⟩
      · by_cases hji : j = i
        · subst hji
          rcases hkeep hbuf hindex with hself | ⟨pfn, data, hmem⟩
          · exact .inl ⟨j, hj, by rw [hf.self]; exact hself⟩
          · exact .inr ⟨j, hj, pfn, data, hmem⟩
        · exact .inl ⟨j, hj, by rw [hf.other hji]; exact ⟨hbuf, hindex⟩⟩
      · exact .inr ⟨j, hj, pfn, data, hqueue j pfn _ hmem, hne⟩
    · exact .inl ⟨i, hi, by rw [hf.self]; exact hnew⟩

/-- A step at which the producer keeps its buffer, or has none. -/
theorem LiveInv.goto (h : LiveInv job s g) (hinv : Inv job s g) (hi : i < job.numThreads)
    {p' : Producer D} (hf : Frame s s' i p') (hmutex : s'.dataMutex = s.dataMutex)
    (hlock : Locking (s.producers i).pc → Locking p'.pc)
    (hused : ∀ b : Nat, (s'.buffers b).used = (s.buffers b).used)
    (hkeep : HasBuffer (s.producers i).pc → HasBuffer p'.pc ∧ p'.index = (s.producers i).index) :
    LiveInv job s' g := by
  refine h.producer_local hinv hi hf (fun j _ hj => hmutex ▸ hj) (fun hm => ?_)
    (fun b hb => .inl ⟨?_, ?_⟩) (fun _ _ _ hmem => hmem) (fun _ _ _ l hq => ⟨l, hq⟩)
  · exact hlock (h.locked i (hmutex ▸ hm)).2
  · rwa [hused] at hb
  · rintro hbuf rfl
    exact .inl (hkeep hbuf)

/-- A cell that is appended, perhaps in place of the last one when that is not ready. -/
theorem queue_append {l : List (Slot D)} (hl : ∃ r, g.queue i = l ++ r ∧ ∀ y ∈ r, ¬ y.IsFull)
    (x : Slot D) :
    (∀ j pfn page, .full pfn page ∈ g.queue j →
      .full pfn page ∈ Function.update g.queue i (l ++ [x]) j) ∧
    ∀ n pfn page l', g.queue n = .full pfn page :: l' →
      ∃ l'', Function.update g.queue i (l ++ [x]) n = .full pfn page :: l'' := by
  obtain ⟨r, hq, hr⟩ := hl
  constructor
  · intro j pfn page hmem
    by_cases hji : j = i
    · subst hji
      rw [Function.update_self]
      rw [hq] at hmem
      rcases List.mem_append.mp hmem with hmem | hmem
      · exact List.mem_append_left _ hmem
      · exact (hr _ hmem trivial).elim
    · rwa [Function.update_of_ne hji]
  · intro n pfn page l' hn
    by_cases hni : n = i
    · subst hni
      rw [hq] at hn
      cases l with
      | nil =>
        rw [List.nil_append] at hn
        exact (hr (.full pfn page) (hn ▸ List.mem_cons_self) trivial).elim
      | cons y l =>
        rw [List.cons_append] at hn
        obtain ⟨rfl, -⟩ := List.cons.inj hn
        exact ⟨l ++ [x], by rw [Function.update_self, List.cons_append]⟩
    · exact ⟨l', by rw [Function.update_of_ne hni, hn]⟩

theorem LiveInv.producer_step (h : LiveInv job s g) (hinv : Inv job s g) (hi : i < job.numThreads)
    {result : Option (Option D)} (hs : producerStep job s i result = some s') :
    LiveInv job s' (g.producerStep job.endPfn i (s.producers i)) := by
  have hsame : ∀ {b : Nat} {x : PageData D}, b ≠ (s.producers i).index →
      Function.update s.buffers ((s.producers i).index : Int) x b = s.buffers b :=
    fun hb => Function.update_of_ne (Int.ofNat_inj.not.mpr hb) _ _
  unfold producerStep at hs
  unfold Ghost.producerStep
  cases hpc : (s.producers i).pc with
  | lockData =>
    simp only [hpc] at hs ⊢
    split at hs
    case isTrue hnone =>
      cases hs
      refine h.producer_local hinv hi ⟨rfl, fun _ _ => rfl, rfl, rfl, rfl⟩ ?_ (fun _ => trivial)
        (fun b hb => .inl ⟨hb, ?_⟩) (fun _ _ _ hmem => hmem) (fun _ _ _ l hq => ⟨l, hq⟩)
      · exact fun j hji hj => absurd (Option.some.inj hj).symm hji
      · rw [hpc]
        simp
    case isFalse => cases hs
  | probe =>
    simp only [hpc] at hs ⊢
    split at hs
    · cases hs
      refine h.goto hinv hi (frame_setProducer _ i _) rfl (fun _ => trivial) (fun _ => rfl) ?_
      rw [hpc]
      simp
    · cases hs
      refine h.goto hinv hi (frame_setProducer _ i _) rfl (fun _ => trivial) (fun _ => rfl) ?_
      rw [hpc]
      simp
  | claim =>
    simp only [hpc] at hs ⊢
    cases hs
    refine h.producer_local hinv hi ⟨rfl, fun _ _ => rfl, rfl, rfl, rfl⟩ (by intros; contradiction)
      (by rintro ⟨⟩) (fun b hb => ?_)
      (fun _ _ _ hmem => hmem) (fun _ _ _ l hq => ⟨l, hq⟩)
    by_cases hbi : b = (s.producers i).index
    · exact .inr ⟨trivial, hbi.symm⟩
    · simp only [State.setProducer, State.setBuffer, hsame hbi] at hb
      refine .inl ⟨hb, ?_⟩
      rw [hpc]
      simp
  | poll =>
    simp only [hpc] at hs ⊢
    split at hs
    · cases hs
      exact h
    · cases hs
      exact h.goto hinv hi (frame_setProducer _ i _) rfl (by rw [hpc]; simp) (fun _ => rfl)
        (fun _ => ⟨trivial, rfl⟩)
  | take =>
    simp only [hpc] at hs ⊢
    split at hs
    · cases hs
      exact h.goto hinv hi ⟨rfl, fun _ _ => rfl, rfl, rfl, rfl⟩ rfl (by rw [hpc]; simp)
        (fun _ => rfl) (fun _ => ⟨trivial, rfl⟩)
    · cases hs
  | fill pfn =>
    simp only [hpc] at hs ⊢
    cases hs
    have hqueue := fun x : Slot D => queue_append (g := g) (i := i) (l := g.queue i)
      ⟨[], (List.append_nil _).symm, by simp⟩ x
    have hlock : s.dataMutex ≠ some i := h.not_locked (by rw [hpc]; simp)
    split
    · exact h.producer_local hinv hi ⟨rfl, fun _ hj => Function.update_of_ne hj _ _, rfl, rfl, rfl⟩
        (fun _ _ hj => hj) (fun hm => absurd hm hlock)
        (fun b hb => .inl ⟨hb, fun _ hindex => .inl ⟨trivial, hindex⟩⟩) (hqueue _).1 (hqueue _).2
    · exact h.producer_local hinv hi ⟨rfl, fun _ hj => Function.update_of_ne hj _ _, rfl, rfl, rfl⟩
        (fun _ _ hj => hj) (fun hm => absurd hm hlock)
        (fun b hb => .inl ⟨hb, fun _ hindex => .inl ⟨trivial, hindex⟩⟩) (hqueue _).1 (hqueue _).2
  | post pfn =>
    simp only [hpc] at hs ⊢
    cases hs
    refine h.goto hinv hi ⟨rfl, fun _ _ => rfl, rfl, rfl, rfl⟩ rfl (by rw [hpc]; simp)
      (fun _ => rfl) (fun _ => ⟨?_, rfl⟩)
    dsimp only
    split <;> trivial
  | setEnd =>
    simp only [hpc] at hs ⊢
    cases hs
    exact h.goto hinv hi ⟨rfl, fun _ _ => rfl, rfl, rfl, rfl⟩ rfl (by rw [hpc]; simp) (fun _ => rfl)
      (fun _ => ⟨trivial, rfl⟩)
  | giveBack =>
    simp only [hpc] at hs ⊢
    cases hs
    refine h.producer_local hinv hi (frame_setBuffer _ i _ _ _) (fun _ _ hj => hj)
      (fun hm => absurd hm (h.not_locked (by rw [hpc]; simp))) (fun b hb => ?_)
      (fun _ _ _ hmem => hmem) (fun _ _ _ l hq => ⟨l, hq⟩)
    by_cases hbi : b = (s.producers i).index
    · subst hbi
      simp [State.setProducer, State.setBuffer] at hb
    · simp only [State.setProducer, State.setBuffer, hsame hbi] at hb
      exact .inl ⟨hb, fun _ hindex => absurd hindex.symm hbi⟩
  | produce pfn =>
    simp only [hpc] at hs ⊢
    cases result with
    | none =>
      cases hs
      exact h.goto hinv hi (frame_setProducer _ i _) rfl (by rw [hpc]; simp) (fun _ => rfl)
        (fun _ => ⟨trivial, rfl⟩)
    | some page =>
      cases hs
      exact h.goto hinv hi ⟨rfl, fun _ _ => rfl, rfl, rfl, rfl⟩ rfl (by rw [hpc]; simp)
        (fun _ => rfl) (fun _ => ⟨trivial, rfl⟩)
  | setZero pfn page =>
    simp only [hpc] at hs ⊢
    cases hs
    refine h.goto hinv hi (frame_setFlag _ i _ _ _) rfl (by rw [hpc]; simp) (fun _ => rfl)
      (fun _ => ⟨?_, rfl⟩)
    cases page <;> trivial
  | copy pfn data =>
    simp only [hpc] at hs ⊢
    cases hs
    refine h.goto hinv hi (frame_setBuffer _ i _ _ _) rfl (by rw [hpc]; simp) (fun b => ?_)
      (fun _ => ⟨trivial, rfl⟩)
    by_cases hbi : b = (s.producers i).index
    · subst hbi
      simp [State.setProducer, State.setBuffer]
    · simp only [State.setProducer, State.setBuffer, hsame hbi]
  | mark | setIndex =>
    simp only [hpc] at hs ⊢
    cases hs
    exact h.goto hinv hi (frame_setFlag _ i _ _ _) rfl (by rw [hpc]; simp) (fun _ => rfl)
      (fun _ => ⟨trivial, rfl⟩)
  | publish pfn page =>
    simp only [hpc] at hs ⊢
    cases hs
    obtain ⟨l, hq, -⟩ := (hinv.thread i hi).busy (by rw [hpc]; rfl)
    have hqueue := fun x : Slot D => queue_append ⟨[.filling pfn], hq, fun y hy => by
      rw [List.mem_singleton.mp hy]
      exact id⟩ x
    rw [hq, List.dropLast_concat]
    refine h.producer_local hinv hi (frame_setFlag _ i _ _ _) (fun _ _ hj => hj)
      (fun hm => absurd hm (h.not_locked (by rw [hpc]; simp))) (fun b hb => .inl ⟨hb, ?_⟩)
      (hqueue _).1 (hqueue _).2
    rintro - rfl
    cases page with
    | none => exact .inl ⟨trivial, rfl⟩
    | some data =>
      refine .inr ⟨pfn, data, ?_, ?_⟩
      · dsimp only
        rw [Function.update_self]
        exact List.mem_append_right _ List.mem_cons_self
      · intro hfreed
        obtain ⟨t, ht, page, l', hq'⟩ := hinv.front_of_freed hfreed
        have hmem : Slot.filling pfn ∈ g.queue i := hq ▸ List.mem_append_right l List.mem_cons_self
        cases (hinv.front_unique ht hq' hi hmem rfl).2
  | done =>
    simp only [hpc] at hs
    cases hs
  | left =>
    simp only [hpc] at hs
    cases hs

/-- A step of the consumer that leaves the pages where they are. -/
theorem LiveInv.consumer_goto (h : LiveInv job s g) (hproducers : s'.producers = s.producers)
    (hmutex : s'.dataMutex = s.dataMutex) (hbuffers : s'.buffers = s.buffers)
    (hfreed : ∀ pfn, freed s' g' = some pfn → freed s g = some pfn)
    (hqueue : ∀ j pfn page, .full pfn page ∈ g.queue j → .full pfn page ∈ g'.queue j) :
    LiveInv job s' g' := by
  constructor
  · intro j hj
    rw [hproducers]
    exact h.locked j (hmutex ▸ hj)
  · intro b hb
    rw [hproducers]
    rcases h.used b (hbuffers ▸ hb) with hprod | ⟨j, hj, pfn, data, hmem, hne⟩
    · exact .inl hprod
    · exact .inr ⟨j, hj, pfn, data, hqueue j pfn _ hmem, fun hf => hne (hfreed pfn hf)⟩

/-- The first page is written, and has no buffer any more. -/
theorem LiveInv.give_back (h : LiveInv job s g) (hinv : Inv job s g) {t pfn : Nat}
    {page : Option (Nat × D)} {l : List (Slot D)} (ht : t < job.numThreads)
    (hq : g.queue t = .full pfn page :: l) (hproducers : s'.producers = s.producers)
    (hmutex : s'.dataMutex = s.dataMutex) (hconsumer : s'.consumer = .unuse t)
    (hused : ∀ c : Nat, (s'.buffers c).used = true →
      (s.buffers c).used = true ∧ ∀ data, page ≠ some (c, data)) : LiveInv job s' g := by
  constructor
  · intro j hj
    rw [hproducers]
    exact h.locked j (hmutex ▸ hj)
  · intro c hc
    rw [hproducers]
    obtain ⟨hold, hne⟩ := hused c hc
    rcases h.used c hold with hprod | ⟨j, hj, q, data, hmem, -⟩
    · exact .inl hprod
    · refine .inr ⟨j, hj, q, data, hmem, fun hfreed => ?_⟩
      have hqp : q = pfn := by
        simp only [freed, hconsumer, hq, List.head?_cons, Option.bind_some, Slot.pfn] at hfreed
        exact (Option.some.inj hfreed).symm
      subst hqp
      cases (hinv.front_unique ht hq hj hmem rfl).2
      exact hne data rfl

theorem LiveInv.unuse_step (h : LiveInv job s g) (hinv : Inv job s g) {t : Nat}
    (hpc : s.consumer = .unuse t) :
    LiveInv job { s.setFlag t (s.rings t) { s.flags t (s.rings t) with ready := .unused } with
      rings := Function.update s.rings t (nextFlag (s.rings t)), consumer := .wait }
      (g.consumerStep (.unuse t)) := by
  have hc := hinv.consumer
  rw [hpc] at hc
  obtain ⟨page, pfn, rest, l, hp, hq⟩ := hc
  refine ⟨h.locked, fun c hc => ?_⟩
  rcases h.used c hc with hprod | ⟨j, hj, q, data, hmem, hne⟩
  · exact .inl hprod
  · refine .inr ⟨j, hj, q, data, ?_, by rintro ⟨⟩⟩
    show Slot.full q (some (c, data)) ∈ Function.update g.queue t (g.queue t).tail j
    by_cases hjt : j = t
    · subst hjt
      rw [Function.update_self, hq]
      rw [hq] at hmem
      rcases List.mem_cons.mp hmem with heq | hmem
      · cases heq
        exact absurd (by simp [freed, hpc, hq, Slot.pfn]) hne
      · exact hmem
    · rwa [Function.update_of_ne hjt]

theorem LiveInv.consumer_step (h : LiveInv job s g) (hinv : Inv job s g) {fails : Bool}
    (hs : consumerStep job s fails = some s') : LiveInv job s' (g.consumerStep s.consumer) := by
  unfold consumerStep at hs
  cases hpc : s.consumer with
  | release consuming index =>
    have hc := hinv.consumer
    rw [hpc] at hc
    obtain ⟨b, data, ⟨pfn, rest, l, hp, hq⟩, rfl⟩ := hc
    have ht := hinv.inside (consuming, pfn) (hp ▸ List.mem_cons_self)
    simp only [hpc] at hs
    cases hs
    refine h.give_back hinv ht hq rfl rfl rfl fun c hc => ?_
    have hcb : c ≠ b := by
      rintro rfl
      simp [State.setBuffer] at hc
    simp only [State.setBuffer, Function.update_of_ne (Int.ofNat_inj.not.mpr hcb)] at hc
    refine ⟨hc, fun data' heq => hcb ?_⟩
    cases heq
    rfl
  | unuse consuming =>
    simp only [hpc] at hs
    cases hs
    exact h.unuse_step hinv hpc
  | unmark i current consuming =>
    have hc := hinv.consumer
    rw [hpc] at hc
    simp only [hpc] at hs
    cases hs
    refine h.consumer_goto rfl rfl rfl (by intros; contradiction) fun j pfn page hmem => ?_
    show Slot.full pfn page ∈ Function.update g.queue i [] j
    by_cases hji : j = i
    · subst hji
      rw [hc.2.2] at hmem
      cases List.mem_singleton.mp hmem
    · rwa [Function.update_of_ne hji]
  | readZero consuming =>
    have hc := hinv.consumer
    rw [hpc] at hc
    obtain ⟨page, pfn, rest, l, hp, hq⟩ := hc
    have ht : consuming < job.numThreads := hinv.inside (consuming, pfn) (hp ▸ List.mem_cons_self)
    simp only [hpc] at hs
    split at hs
    case isTrue hzero =>
      split at hs
      · cases hs
        exact h.consumer_goto rfl rfl rfl (by intros; contradiction) fun _ _ _ hmem => hmem
      · cases hs
        refine h.give_back hinv ht hq rfl rfl rfl fun c hc => ⟨hc, ?_⟩
        rintro data rfl
        have hholds := (hq ▸ (hinv.thread consuming ht).ring).holds_head
        exact absurd (hzero.symm.trans hholds.2.2.1) (by simp)
    case isFalse =>
      cases hs
      exact h.consumer_goto rfl rfl rfl (by intros; contradiction) fun _ _ _ hmem => hmem
  | wait | scan | look | check | confirm | readIndex | write =>
    simp only [hpc] at hs
    (repeat' split at hs) <;> cases hs <;>
      exact h.consumer_goto rfl rfl rfl (by intros; contradiction) fun _ _ _ hmem => hmem
  | finished | failed =>
    simp only [hpc] at hs
    cases hs

/-! ## The work of the producers -/

/-- How far a producer is from its next page, or from its end; a page that is taken counts 100. -/
def rank (endPfn : Nat) : ProducerPc D → Nat
  | .lockData => 20
  | .probe => 19
  | .claim => 18
  | .poll => 17
  | .take => 16
  | .mark pfn => if pfn < endPfn then 116 else 15
  | .fill pfn => if pfn < endPfn then 115 else 14
  | .post pfn => if pfn < endPfn then 114 else 13
  | .setEnd => 12
  | .giveBack => 11
  | .produce _ => 105
  | .setZero _ _ => 104
  | .copy _ _ => 103
  | .setIndex _ _ => 102
  | .publish _ _ => 101
  | .done | .left => 0

/-- The number of pages from `pfn` on. -/
def Job.untaken (job : Job) (pfn : Nat) : Nat :=
  job.dumpablePfns.length - (job.pagesBelow pfn).length

def work (job : Job) (s : State D) : Nat :=
  101 * job.untaken s.currentPfn +
    ∑ i ∈ Finset.range job.numThreads, rank job.endPfn (s.producers i).pc

theorem work_lt {p' : Producer D} (hi : i < job.numThreads) (hf : Frame s s' i p')
    (h : 101 * job.untaken s'.currentPfn + rank job.endPfn p'.pc <
      101 * job.untaken s.currentPfn + rank job.endPfn (s.producers i).pc) :
    work job s' < work job s := by
  have hsum := sum_change hi (F := fun j => rank job.endPfn (s'.producers j).pc)
    (G := fun j => rank job.endPfn (s.producers j).pc) fun j _ hj => by rw [hf.other hj]
  rw [hf.self] at hsum
  unfold work
  omega

/-- A step of the producer that is not a search. -/
def CanStep (s : State D) (i : Nat) : Prop :=
  match (s.producers i).pc with
  | .lockData => s.dataMutex = none
  | .probe => (s.buffers (s.producers i).index).used = false
  | .poll => (s.flags i (s.producers i).pos).ready ≠ .ready
  | .take => s.pfnMutex = none
  | .done | .left => False
  | _ => True

/-- No producer has failed. -/
def Alive (job : Job) (s : State D) : Prop := ∀ j < job.numThreads, (s.producers j).pc ≠ .left

/-- The producer makes a step, and has less to do. -/
structure Worked (job : Job) (page : Nat → Option D) (s : State D) (i : Nat) (s' : State D) :
    Prop where
  step : step job s ((Choice.producer i false).action page s) = some s'
  work : work job s' < work job s
  written : s'.written = s.written
  consumer : s'.consumer = s.consumer
  alive : Alive job s → Alive job s'

theorem worked (page : Nat → Option D) (hi : i < job.numThreads) {p' : Producer D}
    (hs : producerStep job s i
      (match (s.producers i).pc with
      | .produce pfn => some (page pfn)
      | _ => none) = some s')
    (hf : Frame s s' i p')
    (hlt : 101 * job.untaken s'.currentPfn + rank job.endPfn p'.pc <
      101 * job.untaken s.currentPfn + rank job.endPfn (s.producers i).pc)
    (hwritten : s'.written = s.written) (hleft : p'.pc ≠ .left) : Worked job page s i s' := by
  refine ⟨?_, work_lt hi hf hlt, hwritten, hf.consumer, fun ha j hj => ?_⟩
  · simp only [Choice.action, Parallel.step, if_pos hi]
    exact hs
  · by_cases hji : j = i
    · rw [hji, hf.self]
      exact hleft
    · rw [hf.other hji]
      exact ha j hj

theorem untaken_next {pfn : Nat} (hs : job.startPfn ≤ pfn) :
    job.untaken (job.nextDumpable pfn + 1) +
      (if job.nextDumpable pfn < job.endPfn then 1 else 0) = job.untaken pfn := by
  have hlen := (pagesBelow_isPrefix job (job.nextDumpable pfn + 1)).length_le
  unfold Job.untaken
  rw [pagesBelow_next hs, List.length_append] at hlen ⊢
  split <;> rename_i hlt <;> simp only [hlt, if_true, if_false, List.length_singleton,
      List.length_nil]
    at hlen ⊢ <;> omega

theorem producerStep_of_canStep (job : Job) (hcan : CanStep s i) (page : Nat → Option D) :
    ∃ s', producerStep job s i
      (match (s.producers i).pc with
      | .produce pfn => some (page pfn)
      | _ => none) = some s' := by
  unfold CanStep at hcan
  unfold producerStep
  cases hpc : (s.producers i).pc with
  | lockData | take =>
    rw [hpc] at hcan
    simp only [hpc]
    exact ⟨_, if_pos hcan⟩
  | probe =>
    rw [hpc] at hcan
    simp only [hpc, hcan]
    exact ⟨_, if_neg (by simp)⟩
  | poll =>
    rw [hpc] at hcan
    simp only [hpc]
    exact ⟨_, if_neg hcan⟩
  | claim | mark | fill | post | setEnd | giveBack | produce | setZero | copy | setIndex
      | publish =>
    simp only [hpc]
    exact ⟨_, rfl⟩
  | done | left =>
    rw [hpc] at hcan
    exact hcan.elim

/-- **A producer that can make a step** comes nearer to its end. -/
theorem Inv.producer_worked (h : Inv job s g) (hi : i < job.numThreads) (page : Nat → Option D)
    (hcan : CanStep s i) : ∃ s', Worked job page s i s' := by
  obtain ⟨s', hs⟩ := producerStep_of_canStep job hcan page
  refine ⟨s', ?_⟩
  have hstep := hs
  unfold producerStep at hs
  unfold CanStep at hcan
  cases hpc : (s.producers i).pc with
  | lockData =>
    rw [hpc] at hcan
    simp only [hpc, if_pos hcan] at hs
    cases hs
    refine worked page hi hstep ⟨rfl, fun _ _ => rfl, rfl, rfl, rfl⟩ ?_ rfl (by simp)
    rw [hpc]
    exact Nat.lt_succ_self _
  | probe =>
    rw [hpc] at hcan
    simp only [hpc, hcan] at hs
    cases hs
    refine worked page hi hstep (frame_setProducer _ i _) ?_ rfl (by simp)
    rw [hpc]
    exact Nat.lt_succ_self _
  | claim =>
    simp only [hpc] at hs
    cases hs
    refine worked page hi hstep ⟨rfl, fun _ _ => rfl, rfl, rfl, rfl⟩ ?_ rfl (by simp)
    rw [hpc]
    exact Nat.lt_succ_self _
  | poll =>
    rw [hpc] at hcan
    simp only [hpc, if_neg hcan] at hs
    cases hs
    refine worked page hi hstep (frame_setProducer _ i _) ?_ rfl (by simp)
    rw [hpc]
    exact Nat.lt_succ_self _
  | take =>
    rw [hpc] at hcan
    simp only [hpc, if_pos hcan] at hs
    cases hs
    refine worked page hi hstep ⟨rfl, fun _ _ => rfl, rfl, rfl, rfl⟩ ?_ rfl (by simp)
    rw [hpc]
    have hnext := @untaken_next job s.currentPfn h.start.1
    simp only [State.setProducer, rank]
    split at hnext <;> rename_i hlt <;> simp only [hlt, if_true, if_false] <;> omega
  | mark pfn | fill pfn =>
    simp only [hpc] at hs
    cases hs
    refine worked page hi hstep ⟨rfl, fun _ hj => Function.update_of_ne hj _ _, rfl, rfl, rfl⟩ ?_
      rfl
      (by simp)
    rw [hpc]
    simp only [State.setProducer, State.setFlag, rank]
    split <;> omega
  | post pfn =>
    simp only [hpc] at hs
    cases hs
    refine worked page hi hstep ⟨rfl, fun _ _ => rfl, rfl, rfl, rfl⟩ ?_ rfl ?_
    · rw [hpc]
      simp only [State.setProducer]
      by_cases hle : job.endPfn ≤ pfn
      · simp only [if_pos hle, rank, if_neg (Nat.not_lt.mpr hle)]
        omega
      · simp only [if_neg hle, rank, if_pos (Nat.not_le.mp hle)]
        omega
    · dsimp only
      split <;> simp
  | setEnd =>
    simp only [hpc] at hs
    cases hs
    refine worked page hi hstep ⟨rfl, fun _ _ => rfl, rfl, rfl, rfl⟩ ?_ rfl (by simp)
    have hend := h.atEnd i hi (by rw [hpc]; rfl)
    rw [hpc]
    simp only [State.setProducer, rank, Job.untaken, pagesBelow_end hend,
      pagesBelow_end (Nat.le_refl _)]
    omega
  | giveBack | copy =>
    simp only [hpc] at hs
    cases hs
    refine worked page hi hstep (frame_setBuffer _ i _ _ _) ?_ rfl (by simp)
    rw [hpc]
    simp only [State.setProducer, State.setBuffer, rank]
    omega
  | produce pfn =>
    simp only [hpc] at hs
    cases hs
    refine worked page hi hstep ⟨rfl, fun _ _ => rfl, rfl, rfl, rfl⟩ ?_ rfl (by simp)
    rw [hpc]
    exact Nat.lt_succ_self _
  | setZero pfn data =>
    simp only [hpc] at hs
    cases hs
    refine worked page hi hstep (frame_setFlag _ i _ _ _) ?_ rfl ?_
    · rw [hpc]
      cases data <;> simp [State.setProducer, State.setFlag, rank]
    · cases data <;> simp
  | setIndex pfn data =>
    simp only [hpc] at hs
    cases hs
    refine worked page hi hstep (frame_setFlag _ i _ _ _) ?_ rfl (by simp)
    rw [hpc]
    exact Nat.lt_succ_self _
  | publish pfn data =>
    simp only [hpc] at hs
    cases hs
    refine worked page hi hstep (frame_setFlag _ i _ _ _) ?_ rfl ?_
    · rw [hpc]
      cases data <;> simp [State.setProducer, State.setFlag, rank]
    · cases data <;> simp
  | done | left =>
    rw [hpc] at hcan
    exact hcan.elim

/-! ## The way of the consumer to the first page -/

/-- How far the consumer is from its next write, when it finds the first page. -/
def dist (n : Nat) : ConsumerPc → Nat
  | .release _ _ => 3 * n + 9
  | .unuse _ => 3 * n + 8
  | .wait => 3 * n + 7
  | .scan i _ _ => 3 * (n - i) + 6
  | .look i _ _ => 3 * (n - i) + 5
  | .unmark i _ _ => 3 * (n - i) + 4
  | .check _ _ => 5
  | .confirm _ _ => 4
  | .readZero _ => 3
  | .readIndex _ => 2
  | .write _ _ => 1
  | .finished | .failed => 0

/-- The consumer makes a step, and comes nearer to its next write or writes. -/
structure Consumed (job : Job) (s s' : State D) : Prop where
  step : consumerStep job s false = some s'
  producers : s'.producers = s.producers
  currentPfn : s'.currentPfn = s.currentPfn
  progress : s'.consumer = .finished ∨ s'.written.length = s.written.length + 1 ∨
    s'.written = s.written ∧ dist job.numThreads s'.consumer < dist job.numThreads s.consumer
  consumer : s'.consumer ≠ .failed

theorem Inv.front_flag (h : Inv job s g) {t : Nat} {page : Option (Nat × D)} (hf : Front g t page) :
    ∃ pfn rest, g.pending = (t, pfn) :: rest ∧ (s.flags t (s.rings t)).ready = .ready ∧
      (s.flags t (s.rings t)).pfn = pfn := by
  obtain ⟨pfn, rest, l, hp, hq⟩ := hf
  have ht : t < job.numThreads := h.inside (t, pfn) (hp ▸ List.mem_cons_self)
  have hholds := (hq ▸ (h.thread t ht).ring).holds_head
  cases page with
  | none => exact ⟨pfn, rest, hp, hholds.2.1, hholds.1⟩
  | some x => exact ⟨pfn, rest, hp, hholds.2.1, hholds.1⟩

theorem Inv.seen_all (h : Inv job s g) {t pfn current consuming : Nat} {rest : List (Nat × Nat)}
    (hp : g.pending = (t, pfn) :: rest) (hs : Seen job g job.numThreads current consuming) :
    current = pfn ∧ consuming = t := by
  unfold Seen at hs
  rw [hp] at hs
  dsimp only at hs
  rwa [if_pos (h.inside (t, pfn) (hp ▸ List.mem_cons_self))] at hs

/-- **When the first page is ready**, the consumer comes to it. -/
theorem Inv.consumer_progress (h : Inv job s g) {t : Nat} {page : Option (Nat × D)}
    (hf : Front g t page) (hsem : s.consumer = .wait → 0 < s.sem) (hfin : s.consumer ≠ .finished)
    (hfail : s.consumer ≠ .failed) : ∃ s', Consumed job s s' := by
  obtain ⟨pfn, rest, hp, hready, hpfn⟩ := h.front_flag hf
  have hc := h.consumer
  cases hpc : s.consumer with
  | wait =>
    refine ⟨{ s with sem := s.sem - 1, consumer := .scan 0 job.endPfn 0 }, ?_, rfl, rfl,
      .inr (.inr ⟨rfl, ?_⟩), by simp⟩
    · simp [consumerStep, hpc, hsem hpc]
    · rw [hpc]
      exact Nat.lt_succ_self _
  | scan i current consuming =>
    by_cases hi : i < job.numThreads
    · by_cases hunused : (s.flags i (s.rings i)).ready = .unused
      · refine ⟨{ s with consumer := .scan (i + 1) current consuming }, ?_, rfl, rfl,
          .inr (.inr ⟨rfl, ?_⟩), by simp⟩
        · simp [consumerStep, hpc, hi, hunused]
        · rw [hpc]
          simp only [dist]
          omega
      · refine ⟨{ s with consumer := .look i current consuming }, ?_, rfl, rfl,
          .inr (.inr ⟨rfl, ?_⟩), by simp⟩
        · simp [consumerStep, hpc, hi, hunused]
        · rw [hpc]
          exact Nat.lt_succ_self _
    · by_cases hend : job.numThreads ≤ s.endCount
      · refine ⟨{ s with consumer := .finished }, ?_, rfl, rfl, .inl rfl, by simp⟩
        simp [consumerStep, hpc, hi, hend]
      · refine ⟨{ s with consumer := .check current consuming }, ?_, rfl, rfl,
          .inr (.inr ⟨rfl, ?_⟩), by simp⟩
        · simp [consumerStep, hpc, hi, hend]
        · rw [hpc]
          simp only [dist]
          omega
  | look i current consuming =>
    rw [hpc] at hc
    have hi := hc.1
    by_cases hend : job.endPfn ≤ (s.flags i (s.rings i)).pfn
    · refine ⟨{ s with consumer := .unmark i current consuming }, ?_, rfl, rfl,
        .inr (.inr ⟨rfl, ?_⟩), by simp⟩
      · simp [consumerStep, hpc, hend]
      · rw [hpc]
        exact Nat.lt_succ_self _
    · by_cases hcur : current < (s.flags i (s.rings i)).pfn
      · refine ⟨{ s with consumer := .scan (i + 1) current consuming }, ?_, rfl, rfl,
          .inr (.inr ⟨rfl, ?_⟩), by simp⟩
        · simp [consumerStep, hpc, hend, hcur]
        · rw [hpc]
          simp only [dist]
          omega
      · refine ⟨{ s with consumer := .scan (i + 1) (s.flags i (s.rings i)).pfn i }, ?_, rfl, rfl,
          .inr (.inr ⟨rfl, ?_⟩), by simp⟩
        · simp [consumerStep, hpc, hend, hcur]
        · rw [hpc]
          simp only [dist]
          omega
  | unmark i current consuming =>
    rw [hpc] at hc
    have hi := hc.1
    refine ⟨{ s.setFlag i (s.rings i) { s.flags i (s.rings i) with ready := .unused } with
      endCount := s.endCount + 1, consumer := .scan (i + 1) current consuming }, ?_, rfl, rfl,
      .inr (.inr ⟨rfl, ?_⟩), by simp⟩
    · simp [consumerStep, hpc]
    · rw [hpc]
      simp only [dist]
      omega
  | check current consuming =>
    rw [hpc] at hc
    obtain ⟨-, rfl⟩ := h.seen_all hp hc
    refine ⟨{ s with consumer := .confirm current consuming }, ?_, rfl, rfl,
      .inr (.inr ⟨rfl, ?_⟩), by simp⟩
    · simp [consumerStep, hpc, hready]
    · rw [hpc]
      exact Nat.lt_succ_self _
  | confirm current consuming =>
    rw [hpc] at hc
    obtain ⟨rfl, rfl⟩ := h.seen_all hp hc.1
    refine ⟨{ s with consumer := .readZero consuming }, ?_, rfl, rfl, .inr (.inr ⟨rfl, ?_⟩),
      by simp⟩
    · simp [consumerStep, hpc, hpfn]
    · rw [hpc]
      exact Nat.lt_succ_self _
  | readZero consuming =>
    by_cases hzero : (s.flags consuming (s.rings consuming)).zero = true
    · refine ⟨{ s with written := s.written ++ [none], consumer := .unuse consuming }, ?_, rfl, rfl,
        .inr (.inl ?_), by simp⟩
      · simp [consumerStep, hpc, hzero]
      · simp
    · refine ⟨{ s with consumer := .readIndex consuming }, ?_, rfl, rfl, .inr (.inr ⟨rfl, ?_⟩),
        by simp⟩
      · simp [consumerStep, hpc, hzero]
      · rw [hpc]
        exact Nat.lt_succ_self _
  | readIndex consuming =>
    refine ⟨{ s with consumer := .write consuming (s.flags consuming (s.rings consuming)).index },
      ?_,
      rfl, rfl, .inr (.inr ⟨rfl, ?_⟩), by simp⟩
    · simp [consumerStep, hpc]
    · rw [hpc]
      exact Nat.lt_succ_self _
  | write consuming index =>
    refine ⟨{ s with
      written := s.written ++ [some (s.buffers index).data], consumer := .release consuming index },
      ?_, rfl, rfl, .inr (.inl ?_), by simp⟩
    · simp [consumerStep, hpc]
    · simp
  | release consuming index =>
    refine ⟨{ s.setBuffer index { s.buffers index with used := false } with
      consumer := .unuse consuming }, ?_, rfl, rfl, .inr (.inr ⟨rfl, ?_⟩), by simp⟩
    · simp [consumerStep, hpc]
    · rw [hpc]
      exact Nat.lt_succ_self _
  | unuse consuming =>
    refine ⟨{ s.setFlag consuming (s.rings consuming)
        { s.flags consuming (s.rings consuming) with ready := .unused } with
      rings := Function.update s.rings consuming (nextFlag (s.rings consuming)),
      consumer := .wait },
      ?_, rfl, rfl, .inr (.inr ⟨rfl, ?_⟩), by simp⟩
    · simp [consumerStep, hpc]
    · rw [hpc]
      exact Nat.lt_succ_self _
  | finished => exact absurd hpc hfin
  | failed => exact absurd hpc hfail

/-! ## The end of a cycle -/

/-- The marks in front of the place where the consumer looks, which it finds in its next round. -/
def missed (g : Ghost D) (i : Nat) : Nat := (List.range i).countP fun j => !(g.queue j).isEmpty

/-- How far the consumer is from the end, when no page is pending and all producers have ended. -/
def lastDist (n : Nat) (g : Ghost D) : ConsumerPc → Nat
  | .wait => 3 * n + 2
  | .scan i _ _ => 3 * (n - i) + 1 + missed g i * (3 * n + 10)
  | .look i _ _ => 3 * (n - i) + missed g i * (3 * n + 10)
  | .unmark i _ _ => 3 * (n - i) - 1 + missed g i * (3 * n + 10)
  | .check _ _ => 3 * n + 5
  | _ => 0

theorem Inv.queue_of_no_page (h : Inv job s g) (hp : g.pending = []) {j : Nat}
    (hj : j < job.numThreads) : g.queue j = [] ∨ g.queue j = [.mark] := by
  cases hq : g.queue j with
  | nil => exact .inl rfl
  | cons x l =>
    have hx : x.pfn = none := by
      by_contra hne
      obtain ⟨pfn, hpfn⟩ := Option.ne_none_iff_exists'.mp hne
      have := h.mem_pending hj (hq ▸ List.mem_cons_self) hpfn
      rw [hp] at this
      cases this
    cases x with
    | filling pfn => cases hx
    | full pfn page => cases hx
    | mark =>
      have hthread := h.thread j hj
      rw [hq] at hthread
      rw [hthread.nil_of_mark]
      exact .inr rfl

theorem missed_zero (g : Ghost D) : missed g 0 = 0 := rfl

theorem missed_succ (g : Ghost D) {i : Nat} (hq : g.queue i = []) :
    missed g (i + 1) = missed g i := by
  simp [missed, List.range_succ, hq]

/-- **When no page is pending** and all producers have ended, the consumer comes to its end. -/
theorem Inv.last_progress (h : Inv job s g) (hp : g.pending = [])
    (hended : ∀ j < job.numThreads, phase job.endPfn (s.producers j).pc = .ended)
    (hsem : s.consumer = .wait → 0 < s.sem) (hfin : s.consumer ≠ .finished)
    (hfail : s.consumer ≠ .failed) :
    ∃ s', consumerStep job s false = some s' ∧ s'.producers = s.producers ∧
      s'.sem + past s'.consumer =
      s.sem + past s.consumer ∧ s'.consumer ≠ .failed ∧ (s'.consumer = .finished ∨
        lastDist job.numThreads (g.consumerStep s.consumer) s'.consumer <
          lastDist job.numThreads g s.consumer) := by
  have hc := h.consumer
  have hnofront : ∀ t page, ¬ Front g t page := by
    rintro t page ⟨pfn, rest, l, hpending, -⟩
    rw [hp] at hpending
    cases hpending
  cases hpc : s.consumer with
  | wait =>
    refine ⟨{ s with sem := s.sem - 1, consumer := .scan 0 job.endPfn 0 }, ?_, rfl, ?_, by simp,
      .inr ?_⟩
    · simp [consumerStep, hpc, hsem hpc]
    · have := hsem hpc
      simp only [past]
      omega
    · simp only [lastDist, missed_zero]
      omega
  | scan i current consuming =>
    rw [hpc] at hc
    by_cases hi : i < job.numThreads
    · by_cases hunused : (s.flags i (s.rings i)).ready = .unused
      · refine ⟨{ s with consumer := .scan (i + 1) current consuming }, ?_, rfl, rfl, by simp,
          .inr ?_⟩
        · simp [consumerStep, hpc, hi, hunused]
        · have hnil := (h.thread i hi).nil_of_unused hunused
          simp only [lastDist, Ghost.consumerStep, missed_succ g hnil]
          omega
      · refine ⟨{ s with consumer := .look i current consuming }, ?_, rfl, rfl, by simp, .inr ?_⟩
        · simp [consumerStep, hpc, hi, hunused]
        · simp only [lastDist, Ghost.consumerStep]
          omega
    · obtain rfl : i = job.numThreads := Nat.le_antisymm hc.1 (Nat.not_lt.mp hi)
      by_cases hend : job.numThreads ≤ s.endCount
      · refine ⟨{ s with consumer := .finished }, ?_, rfl, rfl, by simp, .inl rfl⟩
        simp [consumerStep, hpc, hend]
      · refine ⟨{ s with consumer := .check current consuming }, ?_, rfl, rfl, by simp, .inr ?_⟩
        · simp [consumerStep, hpc, hend]
        · -- a mark is left
          have hmissed : 0 < missed g job.numThreads := by
            by_contra hno
            have hall : ∀ j ∈ Finset.range job.numThreads,
                counted job.endPfn (s.producers j).pc (g.queue j) = 1 := by
              intro j hj
              have hj := Finset.mem_range.mp hj
              have hnil : g.queue j = [] := by
                by_contra hne
                refine hno (List.countP_pos_iff.mpr ⟨j, List.mem_range.mpr hj, ?_⟩)
                simpa using hne
              rw [counted, hnil, if_pos ⟨hended j hj, rfl⟩]
            have hcount := h.endCount
            rw [Finset.sum_congr rfl hall, ← Finset.card_eq_sum_ones, Finset.card_range] at hcount
            exact hend (Nat.le_of_eq hcount.symm)
          have hmul := Nat.mul_le_mul_right (3 * job.numThreads + 10) hmissed
          simp only [lastDist]
          omega
  | look i current consuming =>
    rw [hpc] at hc
    obtain ⟨hi, -, hne⟩ := hc
    have hmark := (h.queue_of_no_page hp hi).resolve_left hne
    have hholds := (hmark ▸ (h.thread i hi).ring).holds_head
    refine ⟨{ s with consumer := .unmark i current consuming }, ?_, rfl, rfl, by simp, .inr ?_⟩
    · simp [consumerStep, hpc, hholds.1]
    · simp only [lastDist, Ghost.consumerStep]
      omega
  | unmark i current consuming =>
    rw [hpc] at hc
    have hi := hc.1
    refine ⟨{ s.setFlag i (s.rings i) { s.flags i (s.rings i) with ready := .unused } with
      endCount := s.endCount + 1, consumer := .scan (i + 1) current consuming }, ?_, rfl, rfl,
          by simp,
      .inr ?_⟩
    · simp [consumerStep, hpc]
    · have hsame : missed (g.consumerStep (.unmark i current consuming)) (i + 1) = missed g i := by
        rw [missed_succ _ (by simp [Ghost.consumerStep])]
        refine List.countP_congr fun j hj => ?_
        simp only [Ghost.consumerStep, Function.update_of_ne (Nat.ne_of_lt (List.mem_range.mp hj))]
      simp only [lastDist, hsame]
      omega
  | check current consuming =>
    rw [hpc] at hc
    have hready : (s.flags consuming (s.rings consuming)).ready ≠ .ready := fun hready => by
      obtain ⟨page, hf⟩ := h.front_of_check (by rw [hpc]; simp) hc hready
      exact hnofront _ _ hf
    refine ⟨{ s with consumer := .scan 0 job.endPfn 0 }, ?_, rfl, rfl, by simp, .inr ?_⟩
    · simp [consumerStep, hpc, hready]
    · simp only [lastDist, missed_zero]
      omega
  | confirm current consuming =>
    rw [hpc] at hc
    obtain ⟨-, page, hf⟩ := hc
    exact absurd hf (hnofront _ _)
  | readZero consuming | unuse consuming =>
    rw [hpc] at hc
    obtain ⟨page, hf⟩ := hc
    exact absurd hf (hnofront _ _)
  | readIndex consuming =>
    rw [hpc] at hc
    obtain ⟨x, hf⟩ := hc
    exact absurd hf (hnofront _ _)
  | write consuming index | release consuming index =>
    rw [hpc] at hc
    obtain ⟨b, data, hf, -⟩ := hc
    exact absurd hf (hnofront _ _)
  | finished => exact absurd hpc hfin
  | failed => exact absurd hpc hfail

/-! ## Some thread can go on -/

/-- When no page is pending, the used buffers are among those of the producers, and there are more.
-/
theorem LiveInv.free_buffer (h : LiveInv job s g) (hinv : Inv job s g) (hp : g.pending = [])
    (hn : 0 < job.numThreads) : ∃ b < job.numBuffers, (s.buffers b).used = false := by
  have hcard : ((Finset.range job.numThreads).image fun j => (s.producers j).index).card <
      (Finset.range job.numBuffers).card := by
    have hle := Finset.card_image_le (s := Finset.range job.numThreads)
      (f := fun j => (s.producers j).index)
    rw [Finset.card_range] at hle ⊢
    have : job.numBuffers = 5 * job.numThreads := rfl
    omega
  obtain ⟨b, hb, hno⟩ := Finset.exists_mem_notMem_of_card_lt_card hcard
  refine ⟨b, Finset.mem_range.mp hb, ?_⟩
  by_contra hused
  rw [Bool.not_eq_false] at hused
  rcases h.used b hused with ⟨j, hj, -, hindex⟩ | ⟨j, hj, pfn, data, hmem, -⟩
  · exact hno (Finset.mem_image.mpr ⟨j, Finset.mem_range.mpr hj, hindex⟩)
  · have := hinv.mem_pending hj hmem (rfl : (Slot.full pfn (some (b, data))).pfn = some pfn)
    rw [hp] at this
    cases this

theorem canStep_of_busy {endPfn pfn : Nat} (h : phase endPfn (s.producers i).pc = .busy pfn) :
    CanStep s i := by
  unfold CanStep
  cases hpc : (s.producers i).pc <;> rw [hpc] at h <;> trivial

theorem eq_left_of_phase {endPfn : Nat} {pc : ProducerPc D} (h : phase endPfn pc = .left) :
    pc = .left := by
  cases pc with
  | left => rfl
  | post pfn =>
    rw [phase] at h
    split at h <;> cases h
  | lockData | probe | claim | poll | take | mark | fill | setEnd | giveBack | produce | setZero
      | copy
  | setIndex | publish | done => cases h

/-- The producer that has the first page works at it, or the page is ready. -/
theorem Inv.first_page (h : Inv job s g) (halive : Alive job s) (hp : g.pending ≠ []) :
    (∃ i < job.numThreads, CanStep s i) ∨ ∃ t page, Front g t page := by
  obtain ⟨⟨t, pfn⟩, rest, hp⟩ := List.exists_cons_of_ne_nil hp
  obtain ⟨ht, x, l, hq, hx⟩ := h.front hp
  cases x with
  | mark => cases hx
  | full q page =>
    cases hx
    exact .inr ⟨t, page, pfn, rest, l, hp, hq⟩
  | filling q =>
    refine .inl ⟨t, ht, ?_⟩
    have hshape := (h.thread t ht).shape
    rw [hq] at hshape
    cases hphase : phase job.endPfn (s.producers t).pc with
    | busy p => exact canStep_of_busy hphase
    | idle =>
      rw [hphase] at hshape
      exact (hshape.1 (.filling q) List.mem_cons_self).elim
    | ended =>
      rw [hphase] at hshape
      obtain hnil | ⟨l', hl, hfull⟩ := hshape
      · cases hnil
      · cases l' with
        | nil => cases hl
        | cons y l' =>
          cases hl
          exact (hfull (.filling q) List.mem_cons_self).elim
    | left =>
      exact absurd (eq_left_of_phase hphase) (halive t ht)

/-- **Some thread can go on** when no page is pending, or all producers are done. -/
theorem Inv.no_page (h : Inv job s g) (hlive : LiveInv job s g) (halive : Alive job s)
    (hp : g.pending = []) :
    (∃ i < job.numThreads, CanStep s i) ∨ (∃ i < job.numThreads, (s.producers i).pc = .probe) ∨
      ∀ i < job.numThreads, (s.producers i).pc = .done := by
  by_cases hall : ∀ i < job.numThreads, (s.producers i).pc = .done
  · exact .inr (.inr hall)
  · rw [not_forall] at hall
    obtain ⟨i, hall⟩ := hall
    obtain ⟨hi, hdone⟩ := Classical.not_imp.mp hall
    cases hpc : (s.producers i).pc with
    | done => exact absurd hpc hdone
    | left => exact absurd hpc (halive i hi)
    | claim | mark | fill | post | setEnd | giveBack | produce | setZero | copy | setIndex
        | publish =>
      exact .inl ⟨i, hi, by rw [CanStep, hpc]; trivial⟩
    | probe => exact .inr (.inl ⟨i, hi, hpc⟩)
    | lockData =>
      cases hm : s.dataMutex with
      | none => exact .inl ⟨i, hi, by rw [CanStep, hpc]; exact hm⟩
      | some k =>
        obtain ⟨hk, hlock⟩ := hlive.locked k hm
        cases hpck : (s.producers k).pc with
        | probe => exact .inr (.inl ⟨k, hk, hpck⟩)
        | claim => exact .inl ⟨k, hk, by rw [CanStep, hpck]; trivial⟩
        | lockData | poll | take | mark | fill | post | setEnd | giveBack | produce | setZero | copy
        | setIndex | publish | done | left =>
          rw [hpck] at hlock
          exact hlock.elim
    | take =>
      cases hm : s.pfnMutex with
      | none => exact .inl ⟨i, hi, by rw [CanStep, hpc]; exact hm⟩
      | some k =>
        obtain ⟨hk, hcoming⟩ := h.holder k hm
        refine .inl ⟨k, hk, ?_⟩
        rw [CanStep]
        cases hpck : (s.producers k).pc with
        | mark | fill => trivial
        | lockData | probe | claim | poll | take | post | setEnd | giveBack | produce | setZero
            | copy
        | setIndex | publish | done | left =>
          rw [hpck] at hcoming
          cases hcoming
    | poll =>
      refine .inl ⟨i, hi, ?_⟩
      rw [CanStep, hpc]
      have hthread := h.thread i hi
      have hshape := hthread.shape
      rw [hpc] at hshape
      have hnil : g.queue i = [] := by
        rcases h.queue_of_no_page hp hi with hq | hq
        · exact hq
        · rw [hq] at hshape
          exact (hshape.1 .mark List.mem_cons_self).elim
      rw [hnil] at hshape hthread
      have hpos : (s.producers i).pos = s.rings i := by
        rw [hshape.2, List.length_nil, Nat.add_zero, Nat.mod_eq_of_lt hthread.ring.start]
      dsimp only
      rw [hpos, hthread.ring.free_start]
      simp

/-! ## Finishing -/

/-- The invariants at some content of the rings. -/
def Reach (job : Job) (s : State D) : Prop :=
  ∃ g owner done, Inv job s g ∧ DataInv job s g owner done ∧ LiveInv job s g

theorem Reach.step (h : Reach job s) (hbuf : job.numBuffers ≤ 2 ^ 15) {action : Action D}
    (hs : step job s action = some s') : Reach job s' := by
  obtain ⟨g, owner, done, hinv, hdata, hlive⟩ := h
  cases action with
  | producer i result =>
    simp only [Parallel.step] at hs
    split at hs
    case isTrue hi =>
      obtain ⟨owner', hdata'⟩ := hdata.producer_step hinv hi hs
      exact ⟨_, owner', done, hinv.producer_step hi hbuf hs, hdata', hlive.producer_step hinv hi hs⟩
    case isFalse => cases hs
  | consumer fails =>
    obtain ⟨owner', done', hdata'⟩ := hdata.consumer_step hinv hs
    exact ⟨_, owner', done', hinv.consumer_step hs, hdata', hlive.consumer_step hinv hs⟩

theorem Reach.run (hbuf : job.numBuffers ≤ 2 ^ 15) (actions : List (Action D)) (h : Reach job s)
    (hrun : run job s actions = some s') : Reach job s' := by
  induction actions generalizing s with
  | nil => exact Option.some.inj hrun ▸ h
  | cons action actions ih =>
    obtain ⟨s₁, hs, hrun⟩ := Option.bind_eq_some_iff.mp hrun
    exact ih (h.step hbuf hs) hrun

theorem liveInv_create {flags : Nat → Nat → PageFlag} {rings : Nat → Nat} {data : Int → D} :
    LiveInv job (create job flags rings data) (.empty D) :=
  ⟨by intros; contradiction, by intros; contradiction⟩

theorem reach_of_run {flags : Nat → Nat → PageFlag} {rings : Nat → Nat} {data : Int → D}
    (hbuf : job.numBuffers ≤ 2 ^ 15) (hc : Cleared job.numThreads flags rings)
    (hlt : job.startPfn < job.endPfn) (actions : List (Action D))
    (hrun : Parallel.run job (create job flags rings data) actions = some s) : Reach job s :=
  Reach.run hbuf actions ⟨_, _, _, inv_create hc hlt, dataInv_create hlt, liveInv_create⟩ hrun

theorem Reach.written_le (h : Reach job s) : s.written.length ≤ job.dumpablePfns.length := by
  obtain ⟨g, owner, done, hinv, hdata, -⟩ := h
  obtain ⟨pages, hwritten, hprefix, -⟩ := hdata.pages hinv
  have := hprefix.length_le
  rw [List.length_map] at this
  rwa [← hwritten, List.length_map]

theorem runThreads_cons {page : Nat → Option D} {choice : Choice} {order : List Choice}
    (hs : step job s (choice.action page s) = some s') :
    runThreads page job s (choice :: order) = runThreads page job s' order := by
  simp only [runThreads, List.foldlM_cons, hs]
  rfl

theorem runThreads_append {page : Nat → Option D} {order order' : List Choice}
    (hs : runThreads page job s order = some s') :
    runThreads page job s (order ++ order') = runThreads page job s' order' := by
  unfold runThreads at hs ⊢
  rw [List.foldlM_append, hs]
  rfl

/-- The threads can go on to the end. -/
def CanFinish (page : Nat → Option D) (job : Job) (s : State D) : Prop :=
  ∃ order s', runThreads page job s order = some s' ∧ s'.consumer = .finished

theorem CanFinish.of_step {page : Nat → Option D} {c : Choice}
    (hs : Parallel.step job s (c.action page s) = some s') (h : CanFinish page job s') :
    CanFinish page job s := by
  obtain ⟨order, s'', hrun, hfin⟩ := h
  exact ⟨c :: order, s'', (runThreads_cons hs).trans hrun, hfin⟩

/-- The consumer alone comes to the end when all producers are done and no page is pending. -/
theorem Inv.canFinish_of_done {s : State D} {g : Ghost D} (page : Nat → Option D)
    (hn : 0 < job.numThreads) (hdone : ∀ j < job.numThreads, (s.producers j).pc = .done)
    (h : Inv job s g)
    (hp : g.pending = []) (hfail : s.consumer ≠ .failed) : CanFinish page job s := by
  by_cases hfin : s.consumer = .finished
  · exact ⟨[], s, rfl, hfin⟩
  · have hended : ∀ j < job.numThreads, phase job.endPfn (s.producers j).pc = .ended := by
      intro j hj
      rw [hdone j hj]
      rfl
    have hsem : s.consumer = .wait → 0 < s.sem := by
      intro hwait
      have hsum := h.sem
      have h1 : ∑ j ∈ Finset.range job.numThreads, unposted (s.producers j).pc = 0 :=
        Finset.sum_eq_zero fun j hj => by rw [hdone j (Finset.mem_range.mp hj)]; rfl
      have h2 : ∑ j ∈ Finset.range job.numThreads, endedCount job.endPfn (s.producers j).pc =
          job.numThreads := by
        have hone : ∀ j ∈ Finset.range job.numThreads,
            endedCount job.endPfn (s.producers j).pc = 1 :=
          fun j hj => if_pos (hended j (Finset.mem_range.mp hj))
        rw [Finset.sum_congr rfl hone, ← Finset.card_eq_sum_ones, Finset.card_range]
      rw [h1, h2, hwait, hp] at hsum
      simp only [past, List.length_nil] at hsum
      omega
    obtain ⟨s', hs, hproducers, -, hfail', hprogress⟩ := h.last_progress hp hended hsem hfin hfail
    refine CanFinish.of_step (c := .consumer false) hs ?_
    rcases hprogress with hfin' | hlt
    · exact ⟨[], s', rfl, hfin'⟩
    · have hp' : (g.consumerStep s.consumer).pending = [] := by
        cases s.consumer with
        | unuse t => simp [Ghost.consumerStep, hp]
        | wait | scan | look | unmark | check | confirm | readZero | readIndex | write | release
        | finished | failed => exact hp
      exact (h.consumer_step hs).canFinish_of_done page hn (hproducers ▸ hdone) hp' hfail'
termination_by lastDist job.numThreads g s.consumer

/-- A producer looks for a buffer until it finds one. -/
theorem probe_run (page : Nat → Option D) (hi : i < job.numThreads) {b : Nat}
    (hb : b < job.numBuffers)
    (hfree : (s.buffers b).used = false) {p : Producer D} (hpc : p.pc = .probe) :
    ∀ (d x : Nat), x < job.numBuffers → (x + d) % job.numBuffers = b →
      ∃ order y, runThreads page job (s.setProducer i { p with index := x }) order =
        some (s.setProducer i { p with index := y }) ∧ (s.buffers y).used = false := by
  intro d
  induction d with
  | zero =>
    intro x hx hxb
    rw [Nat.add_zero, Nat.mod_eq_of_lt hx] at hxb
    exact ⟨[], x, rfl, hxb ▸ hfree⟩
  | succ d ih =>
    intro x hx hxb
    cases hused : (s.buffers x).used with
    | false => exact ⟨[], x, rfl, hused⟩
    | true =>
      obtain ⟨order, y, hrun, hy⟩ := ih ((x + 1) % job.numBuffers)
        (Nat.mod_lt _ (Nat.zero_lt_of_lt hb))
        (by rw [Nat.mod_add_mod, Nat.add_assoc, Nat.add_comm 1 d, hxb])
      refine ⟨.producer i false :: order, y, ?_, hy⟩
      rw [← hrun]
      refine runThreads_cons ?_
      simp [Choice.action, step, hi, producerStep, State.setProducer, hpc, hused]

theorem CanFinish.of_run {page : Nat → Option D} {order : List Choice}
    (hs : runThreads page job s order = some s') (h : CanFinish page job s') :
    CanFinish page job s := by
  obtain ⟨order', s'', hrun, hfin⟩ := h
  exact ⟨order ++ order', s'', (runThreads_append hs).trans hrun, hfin⟩

/-- A producer that looks for a buffer comes to a free one. -/
theorem Inv.probe_finds (h : Inv job s g) (hlive : LiveInv job s g) (hp : g.pending = [])
    (page : Nat → Option D) (hi : i < job.numThreads) (hpc : (s.producers i).pc = .probe) :
    ∃ order y, runThreads page job s order =
      some (s.setProducer i { s.producers i with index := y }) ∧ (s.buffers y).used = false := by
  obtain ⟨b, hb, hfree⟩ := hlive.free_buffer h hp (Nat.zero_lt_of_lt hi)
  have hindex := (h.thread i hi).index
  have hself : s.setProducer i (s.producers i) = s := by
    simp [State.setProducer, Function.update_eq_self]
  obtain ⟨order, y, hrun, hy⟩ := probe_run page hi hb hfree hpc
    (b + job.numBuffers - (s.producers i).index) (s.producers i).index hindex (by
      rw [show (s.producers i).index + (b + job.numBuffers - (s.producers i).index) =
        b + job.numBuffers by omega, Nat.add_mod_right, Nat.mod_eq_of_lt hb])
  exact ⟨order, y, (congrArg (runThreads page job · order) hself).symm.trans hrun, hy⟩

/-- When the consumer has nothing to wait for, a producer is about to tell it of a page. -/
theorem Inv.exists_post (h : Inv job s g) (hp : g.pending ≠ []) (hwait : s.consumer = .wait)
    (hsem : s.sem = 0) : ∃ i < job.numThreads, CanStep s i := by
  have hsum := h.sem
  have hpos := List.length_pos_iff.mpr hp
  rw [hwait, hsem] at hsum
  simp only [past] at hsum
  obtain ⟨i, hi, hne⟩ := Finset.exists_ne_zero_of_sum_ne_zero
    (show ∑ i ∈ Finset.range job.numThreads, unposted (s.producers i).pc ≠ 0 by omega)
  refine ⟨i, Finset.mem_range.mp hi, ?_⟩
  unfold CanStep
  cases hpc : (s.producers i).pc with
  | post pfn => trivial
  | lockData | probe | claim | poll | take | mark | fill | setEnd | giveBack | produce | setZero
      | copy
  | setIndex | publish | done | left =>
    rw [hpc] at hne
    exact absurd rfl hne

/-- **From every state that is reached** the threads can come to the end. The induction is on the
work of the producers and the pages that are not written, and then on the consumer's way to the
first page. -/
theorem Reach.canFinish (page : Nat → Option D) (hn : 0 < job.numThreads)
    (hbuf : job.numBuffers ≤ 2 ^ 15) {s : State D} (h : Reach job s) (halive : Alive job s)
    (hfail : s.consumer ≠ .failed) : CanFinish page job s := by
  by_cases hfin : s.consumer = .finished
  · exact ⟨[], s, rfl, hfin⟩
  have hwritten := h.written_le
  -- a producer that can make a step makes it
  have hworked : ∀ i < job.numThreads, ∀ s₁, Reach job s₁ → Alive job s₁ →
      work job s₁ = work job s →
      s₁.written = s.written → s₁.consumer = s.consumer → CanStep s₁ i → CanFinish page job s₁ := by
    intro i hi s₁ h₁ halive₁ hwork₁ hwritten₁ hconsumer₁ hcan
    have hreach := h₁
    obtain ⟨g, owner, done, hinv, -, -⟩ := h₁
    obtain ⟨s', hs'⟩ := hinv.producer_worked hi page hcan
    have hlt := hs'.work
    refine CanFinish.of_step hs'.step ?_
    exact (hreach.step hbuf hs'.step).canFinish page hn hbuf (hs'.alive halive₁)
      (by rw [hs'.consumer, hconsumer₁]; exact hfail)
  have hreach := h
  obtain ⟨g, owner, done, hinv, hdata, hlive⟩ := h
  by_cases hp : g.pending = []
  · rcases hinv.no_page hlive halive hp with ⟨i, hi, hcan⟩ | ⟨i, hi, hpc⟩ | hdone
    · exact hworked i hi s hreach halive rfl rfl rfl hcan
    · obtain ⟨order, y, hrun, hy⟩ := hinv.probe_finds hlive hp page hi hpc
      refine CanFinish.of_run hrun ?_
      obtain ⟨actions, hactions⟩ := runThreads_run order hrun
      have hsame : ∀ j, ((s.setProducer i { s.producers i with index := y }).producers j).pc =
          (s.producers j).pc := by
        intro j
        by_cases hji : j = i
        · subst hji
          simp [State.setProducer]
        · simp [State.setProducer, Function.update_of_ne hji]
      refine hworked i hi _ (hreach.run hbuf actions hactions) (fun j hj => hsame j ▸ halive j hj)
        ?_ rfl
        rfl ?_
      · unfold work
        simp only [hsame]
        rfl
      · rw [CanStep, hsame, hpc]
        simpa [State.setProducer] using hy
    · exact hinv.canFinish_of_done page hn hdone hp hfail
  · rcases hinv.first_page halive hp with ⟨i, hi, hcan⟩ | ⟨t, first, hfront⟩
    · exact hworked i hi s hreach halive rfl rfl rfl hcan
    · by_cases hsem : s.consumer = .wait → 0 < s.sem
      · obtain ⟨s', hs'⟩ := hinv.consumer_progress hfront hsem hfin hfail
        refine CanFinish.of_step (c := .consumer false) hs'.step ?_
        have hreach' : Reach job s' :=
          hreach.step hbuf (show Parallel.step job s (.consumer false) = some s' from hs'.step)
        have hwork : work job s' = work job s := by
          unfold work
          rw [hs'.producers, hs'.currentPfn]
        rcases hs'.progress with hfin' | hlen | ⟨hsame, hdist⟩
        · exact ⟨[], s', rfl, hfin'⟩
        · have hwritten' := hreach'.written_le
          exact hreach'.canFinish page hn hbuf (fun j hj => hs'.producers ▸ halive j hj)
            hs'.consumer
        · exact hreach'.canFinish page hn hbuf (fun j hj => hs'.producers ▸ halive j hj)
            hs'.consumer
      · obtain ⟨hwait, hzero⟩ := Classical.not_imp.mp hsem
        obtain ⟨i, hi, hcan⟩ := hinv.exists_post hp hwait (Nat.eq_zero_of_not_pos hzero)
        exact hworked i hi s hreach halive rfl rfl rfl hcan
termination_by (work job s + (job.dumpablePfns.length - s.written.length),
  dist job.numThreads s.consumer)
decreasing_by
  · refine Prod.Lex.left _ _ ?_
    rw [hs'.written, hwritten₁]
    omega
  · refine Prod.Lex.left _ _ ?_
    omega
  · rw [hwork, hsame]
    exact Prod.Lex.right _ hdist

end Parallel
