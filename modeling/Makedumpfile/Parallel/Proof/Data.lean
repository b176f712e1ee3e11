import Makedumpfile.Parallel.Proof.Order
import Mathlib.Algebra.Order.BigOperators.Group.Finset

/-!
# The data of the pages

A buffer belongs to the producer that has claimed it, and from `FLAG_READY` on to the page in it,
until the consumer gives it back. So what the consumer writes for a page is what its producer has
made, and what is written are the dumpable pages in their order (`written_in_order`).
-/

namespace Parallel

open Lib

variable {D : Type} {job : Job} {s s' : State D} {i : Nat} {g g' : Ghost D}

/-- Whom a buffer belongs to. -/
inductive Owner where
  | free
  | producer (i : Nat)
  | page (pfn : Nat)
  deriving DecidableEq

/-- The producer has claimed its buffer. -/
@[simp] def Holding : ProducerPc D → Prop
  | .lockData | .probe | .claim | .done | .left => False
  | _ => True

/-- What is in the buffer of the producer. -/
@[simp] def dataOf : ProducerPc D → Option D
  | .setIndex _ data => some data
  | .publish _ page => page
  | _ => none

/-- What the producer has made. -/
@[simp] def madeOf : ProducerPc D → Option (Nat × Option D)
  | .setZero pfn page | .publish pfn page => some (pfn, page)
  | .copy pfn data | .setIndex pfn data => some (pfn, some data)
  | _ => none

/-- The page that the producer is going to make. -/
@[simp] def freshOf : ProducerPc D → Option Nat
  | .mark pfn | .fill pfn | .post pfn | .produce pfn => some pfn
  | _ => none

structure ProducerData (job : Job) (s : State D) (owner : Nat → Owner) (i : Nat) (p : Producer D) :
    Prop where
  mutex : p.pc = .probe ∨ p.pc = .claim → s.dataMutex = some i
  claim : p.pc = .claim → (s.buffers p.index).used = false
  holds : Holding p.pc → owner p.index = .producer i
  data : ∀ data, dataOf p.pc = some data → (s.buffers p.index).data = data
  made : ∀ x, madeOf p.pc = some x → x ∈ s.made
  fresh : ∀ pfn, freshOf p.pc = some pfn → pfn < job.endPfn → pfn ∉ s.made.map Prod.fst

/-- The page whose buffer the consumer has given back. -/
def freed (s : State D) (g : Ghost D) : Option Nat :=
  match s.consumer with
  | .unuse t => (g.queue t).head?.bind Slot.pfn
  | _ => none

/-- What is written are the pages that the consumer has done with, and then the first one. -/
def WrittenPages (s : State D) (g : Ghost D) (done : List (Nat × Option D)) : Prop :=
  match s.consumer with
  | .release t _ | .unuse t => ∃ pfn page l, g.queue t = .full pfn page :: l ∧
      s.written = done.map Prod.snd ++ [page.map Prod.snd]
  | _ => s.written = done.map Prod.snd

structure DataInv (job : Job) (s : State D) (g : Ghost D) (owner : Nat → Owner)
    (done : List (Nat × Option D)) : Prop where
  used : ∀ b : Nat, (s.buffers b).used = true ↔ owner b ≠ .free
  producer : ∀ i < job.numThreads, ProducerData job s owner i (s.producers i)
  full : ∀ i < job.numThreads, ∀ pfn page, .full pfn page ∈ g.queue i →
    (pfn, page.map Prod.snd) ∈ s.made
  buffer : ∀ i < job.numThreads, ∀ pfn b data, .full pfn (some (b, data)) ∈ g.queue i →
    freed s g ≠ some pfn → owner b = .page pfn ∧ (s.buffers b).data = data
  written : WrittenPages s g done
  eaten : done.map Prod.fst = g.eaten
  done_made : ∀ x ∈ done, x ∈ s.made
  nodup : (s.made.map Prod.fst).Nodup
  made_lt : ∀ x ∈ s.made, x.1 < s.currentPfn ∧ x.1 < job.endPfn

variable {owner owner' : Nat → Owner} {done : List (Nat × Option D)}

theorem holding_of_data {pc : ProducerPc D} {data : D} (h : dataOf pc = some data) :
    Holding pc := by
  cases pc <;> trivial

/-- What a step of another thread leaves. -/
theorem ProducerData.other {j : Nat} {p : Producer D} (h : ProducerData job s owner j p)
    (hmutex : s.dataMutex = some j → s'.dataMutex = some j ∧
      ∀ b, (s'.buffers b).used = true → (s.buffers b).used = true)
    (hown : ∀ b : Nat, owner b = .producer j →
      owner' b = .producer j ∧ (s'.buffers b).data = (s.buffers b).data)
    (hmade : ∀ x ∈ s.made, x ∈ s'.made)
    (hfresh : ∀ pfn, freshOf p.pc = some pfn → pfn < job.endPfn → pfn ∉ s'.made.map Prod.fst) :
    ProducerData job s' owner' j p := by
  refine ⟨fun hp => (hmutex (h.mutex hp)).1, fun hp => ?_, fun hp => (hown _ (h.holds hp)).1,
    fun data hp => ?_, fun x hp => hmade x (h.made x hp), hfresh⟩
  · have hfalse := h.claim hp
    rw [Bool.eq_false_iff] at hfalse ⊢
    exact fun htrue => hfalse ((hmutex (h.mutex (.inr hp))).2 _ htrue)
  · rw [(hown _ (h.holds (holding_of_data hp))).2]
    exact h.data data hp

/-! ## Steps of a producer -/

/-- The page at which the consumer is, remains at the front of its ring. -/
theorem DataInv.written_grows (h : DataInv job s g owner done)
    (hfront : ∀ n pfn page l, g.queue n = .full pfn page :: l →
      ∃ l', g'.queue n = .full pfn page :: l')
    (hconsumer : s'.consumer = s.consumer) (hwritten : s'.written = s.written) :
    WrittenPages s' g' done ∧ freed s' g' = freed s g := by
  have hw := h.written
  unfold WrittenPages at hw ⊢
  unfold freed
  rw [hconsumer, hwritten]
  cases hc : s.consumer with
  | release t index =>
    rw [hc] at hw
    obtain ⟨pfn, page, l, hq, hw⟩ := hw
    obtain ⟨l', hq'⟩ := hfront t pfn page l hq
    exact ⟨⟨pfn, page, l', hq', hw⟩, rfl⟩
  | unuse t =>
    rw [hc] at hw
    obtain ⟨pfn, page, l, hq, hw⟩ := hw
    obtain ⟨l', hq'⟩ := hfront t pfn page l hq
    refine ⟨⟨pfn, page, l', hq', hw⟩, ?_⟩
    dsimp only
    rw [hq, hq']
    rfl
  | wait | scan | look | unmark | check | confirm | readZero | readIndex | write | finished |
    failed =>
    rw [hc] at hw
    exact ⟨hw, rfl⟩

/-- A step of the producer `i`, from what it does to the buffers and to the rings. -/
theorem DataInv.producer_local (h : DataInv job s g owner done) {p' : Producer D}
    (hf : Frame s s' i p') (hwritten : s'.written = s.written)
    (hmade : ∀ x ∈ s.made, x ∈ s'.made) (hnodup : (s'.made.map Prod.fst).Nodup)
    (hlt : ∀ x ∈ s'.made, x.1 < s'.currentPfn ∧ x.1 < job.endPfn)
    (hp : ProducerData job s' owner' i p')
    (hother : ∀ j < job.numThreads, j ≠ i → ProducerData job s' owner' j (s.producers j))
    (hused : ∀ b : Nat, (s'.buffers b).used = true ↔ owner' b ≠ .free)
    (hfull : ∀ j < job.numThreads, ∀ pfn page, .full pfn page ∈ g'.queue j →
      (pfn, page.map Prod.snd) ∈ s'.made)
    (hbuffer : ∀ j < job.numThreads, ∀ pfn b data, .full pfn (some (b, data)) ∈ g'.queue j →
      freed s g ≠ some pfn → owner' b = .page pfn ∧ (s'.buffers b).data = data)
    (hfront : ∀ n pfn page l, g.queue n = .full pfn page :: l →
      ∃ l', g'.queue n = .full pfn page :: l')
    (heaten : g'.eaten = g.eaten) :
    DataInv job s' g' owner' done := by
  obtain ⟨hw, hfreed⟩ := h.written_grows hfront hf.consumer hwritten
  refine ⟨hused, ?_, hfull, ?_, hw, heaten ▸ h.eaten, fun x hx => hmade x (h.done_made x hx),
    hnodup,
    hlt⟩
  · intro j hj
    by_cases hji : j = i
    · rw [hji, hf.self]
      exact hp
    · rw [hf.other hji]
      exact hother j hj hji
  · exact fun j hj pfn b data hmem hne => hbuffer j hj pfn b data hmem (hfreed ▸ hne)

/-- A step at which the buffers stay as they are. -/
theorem DataInv.quiet_step (h : DataInv job s g owner done) {p' : Producer D} (hf : Frame s s' i p')
    (hwritten : s'.written = s.written) (hmade : s'.made = s.made)
    (hbuffers : s'.buffers = s.buffers)
    (hcur : ∀ p, p < s.currentPfn → p < job.endPfn → p < s'.currentPfn)
    (hmutex : ∀ j ≠ i, s.dataMutex = some j → s'.dataMutex = some j)
    (hp : ProducerData job s' owner i p')
    (hfull : ∀ j < job.numThreads, ∀ pfn page, .full pfn page ∈ g'.queue j →
      .full pfn page ∈ g.queue j ∨ page = none ∧ (pfn, none) ∈ s.made)
    (hfront : ∀ n pfn page l, g.queue n = .full pfn page :: l →
      ∃ l', g'.queue n = .full pfn page :: l')
    (heaten : g'.eaten = g.eaten) : DataInv job s' g' owner done := by
  refine h.producer_local hf hwritten (fun x hx => hmade ▸ hx) (hmade ▸ h.nodup) ?_ hp
    ?_ ?_ ?_ ?_ hfront heaten
  · rw [hmade]
    exact fun x hx => ⟨hcur x.1 (h.made_lt x hx).1 (h.made_lt x hx).2, (h.made_lt x hx).2⟩
  · intro j hj hji
    refine (h.producer j hj).other (fun hm => ⟨hmutex j hji hm, ?_⟩)
      (fun b hb => ⟨hb, by rw [hbuffers]⟩)
      (fun x hx => hmade ▸ hx) (hmade ▸ (h.producer j hj).fresh)
    rw [hbuffers]
    exact fun b hb => hb
  · rw [hbuffers]
    exact h.used
  · intro j hj pfn page hmem
    rw [hmade]
    rcases hfull j hj pfn page hmem with hold | ⟨rfl, hnew⟩
    · exact h.full j hj pfn page hold
    · exact hnew
  · intro j hj pfn b data hmem hne
    rw [hbuffers]
    rcases hfull j hj pfn _ hmem with hold | ⟨hnone, -⟩
    · exact h.buffer j hj pfn b data hold hne
    · cases hnone

/-- A step at which the rings stay as they are, too. -/
theorem DataInv.goto_step (h : DataInv job s g owner done) {p' : Producer D} (hf : Frame s s' i p')
    (hwritten : s'.written = s.written) (hmade : s'.made = s.made)
    (hbuffers : s'.buffers = s.buffers)
    (hcur : ∀ p, p < s.currentPfn → p < job.endPfn → p < s'.currentPfn)
    (hmutex : ∀ j ≠ i, s.dataMutex = some j → s'.dataMutex = some j)
    (hp : ProducerData job s' owner i p') : DataInv job s' g owner done :=
  h.quiet_step hf hwritten hmade hbuffers hcur hmutex hp (fun _ _ _ _ hmem => .inl hmem)
    (fun _ _ _ l hq => ⟨l, hq⟩) rfl

/-- The producer takes a buffer, gives its own back or fills it. -/
theorem DataInv.own_step (h : DataInv job s g owner done) {p' : Producer D} (hf : Frame s s' i p')
    (hwritten : s'.written = s.written) (hmade : s'.made = s.made)
    (hcur : s'.currentPfn = s.currentPfn) {b : Nat} {x : PageData D}
    (hbuffers : s'.buffers = Function.update s.buffers b x)
    (howner : owner b = .free ∨ owner b = .producer i) {o : Owner}
    (hused : x.used = true ↔ o ≠ .free)
    (hmutex : ∀ j ≠ i, s.dataMutex = some j →
      s'.dataMutex = some j ∧ (x.used = true → (s.buffers b).used = true))
    (hp : ProducerData job s' (Function.update owner b o) i p') :
    DataInv job s' g (Function.update owner b o) done := by
  have hsame : ∀ c : Nat, c ≠ b → s'.buffers c = s.buffers c := by
    intro c hc
    rw [hbuffers, Function.update_of_ne (Int.ofNat_inj.not.mpr hc)]
  have hself : s'.buffers b = x := by rw [hbuffers, Function.update_self]
  refine h.producer_local hf hwritten (fun x hx => hmade ▸ hx) (hmade ▸ h.nodup) ?_ hp
    ?_ ?_ ?_ ?_ (fun _ _ _ l hq => ⟨l, hq⟩) rfl
  · rw [hmade, hcur]
    exact h.made_lt
  · intro j hj hji
    refine (h.producer j hj).other (fun hm => ⟨(hmutex j hji hm).1, ?_⟩) (fun c hc => ?_)
      (fun x hx => hmade ▸ hx) (hmade ▸ (h.producer j hj).fresh)
    · rw [hbuffers]
      intro c hc
      by_cases hcb : c = b
      · subst hcb
        rw [Function.update_self] at hc
        exact (hmutex j hji hm).2 hc
      · rwa [Function.update_of_ne hcb] at hc
    · have hcb : c ≠ b := by
        rintro rfl
        rw [hc] at howner
        rcases howner with hfree | hi
        · cases hfree
        · exact hji (Owner.producer.inj hi)
      rw [hsame c hcb, Function.update_of_ne hcb]
      exact ⟨hc, rfl⟩
  · intro c
    by_cases hcb : c = b
    · rw [hcb, hself, Function.update_self]
      exact hused
    · rw [hsame c hcb, Function.update_of_ne hcb]
      exact h.used c
  · rw [hmade]
    exact h.full
  · intro j hj pfn c data hmem hne
    obtain ⟨hc, hdata⟩ := h.buffer j hj pfn c data hmem hne
    have hcb : c ≠ b := by
      rintro rfl
      rw [hc] at howner
      rcases howner with hfree | hi
      · cases hfree
      · cases hi
    rw [hsame c hcb, Function.update_of_ne hcb]
    exact ⟨hc, hdata⟩

/-- Two producers work at different pages. -/
theorem Inv.fresh_ne (h : Inv job s g) {j p q : Nat} (hi : i < job.numThreads)
    (hj : j < job.numThreads) (hji : j ≠ i) (hpc : (s.producers i).pc = .produce p)
    (hp : freshOf (s.producers j).pc = some q) (hlt : q < job.endPfn) : q ≠ p := by
  have hbusy : ∀ n < job.numThreads, ∀ r, phase job.endPfn (s.producers n).pc = .busy r →
      (n, r) ∈ g.pending := by
    intro n hn r hr
    obtain ⟨l, hq, -⟩ := (h.thread n hn).busy hr
    exact h.mem_pending hn (hq ▸ List.mem_append_right l List.mem_cons_self) rfl
  have hmem := hbusy i hi p (by rw [hpc]; rfl)
  have hplace : (j, q) ∈ g.pending ∨ q ∈ s.comingPages job.endPfn := by
    cases hpc' : (s.producers j).pc with
    | post r =>
      rw [hpc'] at hp
      cases hp
      exact .inl (hbusy j hj q (by rw [hpc', phase, if_neg (Nat.not_le.mpr hlt)]))
    | produce r =>
      rw [hpc'] at hp
      cases hp
      exact .inl (hbusy j hj q (by rw [hpc']; rfl))
    | mark r | fill r =>
      rw [hpc'] at hp
      cases hp
      right
      rw [State.comingPages, h.mutex j hj (by rw [hpc']; rfl), Option.bind_some, hpc']
      simp [coming, hlt]
    | lockData | probe | claim | poll | take | setEnd | giveBack | setZero | copy | setIndex
        | publish
    | done | left =>
      rw [hpc'] at hp
      cases hp
  have hsorted := pagesBelow_sorted job s.currentPfn
  rw [← h.order] at hsorted
  rcases hplace with hq | hq
  · rintro rfl
    have hnodup : (g.pending.map Prod.snd).Nodup := h.pending_sorted.imp Nat.ne_of_lt
    exact hji (congrArg Prod.fst (List.inj_on_of_nodup_map hnodup hq hmem rfl))
  · have := (List.pairwise_append.mp hsorted).2.2 p
      (List.mem_append_right _ (List.mem_map_of_mem hmem)) q hq
    exact Nat.ne_of_gt this

/-- A page comes into the ring that is not ready, or the mark. -/
theorem DataInv.push_step (h : DataInv job s g owner done) {p' : Producer D} (hf : Frame s s' i p')
    (hwritten : s'.written = s.written) (hmade : s'.made = s.made)
    (hbuffers : s'.buffers = s.buffers)
    (hcur : s'.currentPfn = s.currentPfn) (hmutex : s'.dataMutex = s.dataMutex)
    (hp : ProducerData job s' owner i p') {x : Slot D}
    (hqueue : g'.queue = Function.update g.queue i (g.queue i ++ [x])) (heaten : g'.eaten = g.eaten)
    (hx : ¬ x.IsFull) : DataInv job s' g' owner done := by
  refine h.quiet_step hf hwritten hmade hbuffers (fun _ hlt _ => hcur ▸ hlt)
    (fun _ _ hj => hmutex ▸ hj) hp ?_ ?_ heaten
  · intro j hj pfn page hmem
    left
    rw [hqueue] at hmem
    by_cases hji : j = i
    · subst hji
      rw [Function.update_self] at hmem
      rcases List.mem_append.mp hmem with hmem | hmem
      · exact hmem
      · exact (hx (List.mem_singleton.mp hmem ▸ trivial)).elim
    · rwa [Function.update_of_ne hji] at hmem
  · intro n pfn page l hq
    rw [hqueue]
    by_cases hni : n = i
    · subst hni
      exact ⟨l ++ [x], by rw [Function.update_self, hq, List.cons_append]⟩
    · exact ⟨l, by rw [Function.update_of_ne hni, hq]⟩

/-- The producer has made a page. -/
theorem DataInv.produce_step (h : DataInv job s g owner done) (hinv : Inv job s g)
    (hi : i < job.numThreads) {pfn : Nat} (hpc : (s.producers i).pc = .produce pfn)
    (page : Option D) :
    DataInv job ({ s with made := s.made ++ [(pfn, page)] }.setProducer i
      { s.producers i with pc := .setZero pfn page }) g owner done := by
  have hd := h.producer i hi
  have hown := hd.holds (by rw [hpc]; trivial)
  obtain ⟨l, hq, -, -, hholds⟩ := (hinv.thread i hi).busy (by rw [hpc]; rfl)
  have hlt : pfn < job.endPfn := hholds.2.2
  have hfresh := hd.fresh pfn (by rw [hpc]; rfl) hlt
  have hmade : ∀ x ∈ s.made, x ∈ s.made ++ [(pfn, page)] := fun x hx => List.mem_append_left _ hx
  refine h.producer_local ⟨rfl, fun _ _ => rfl, rfl, rfl, rfl⟩ rfl hmade ?_ ?_ ?_ ?_ h.used ?_
    h.buffer (fun _ _ _ l hq => ⟨l, hq⟩) rfl
  · show ((s.made ++ [(pfn, page)]).map Prod.fst).Nodup
    rw [List.map_append, List.nodup_append]
    refine ⟨h.nodup, List.nodup_singleton _, fun a ha b hb => ?_⟩
    rw [List.mem_singleton.mp hb]
    rintro rfl
    exact hfresh ha
  · intro x hx
    rcases List.mem_append.mp hx with hx | hx
    · exact h.made_lt x hx
    · rw [List.mem_singleton.mp hx]
      have hmem := hinv.mem_pending hi (hq ▸ List.mem_append_right l List.mem_cons_self) rfl
      have hbelow : pfn ∈ job.pagesBelow s.currentPfn := by
        rw [← hinv.order]
        exact List.mem_append_left _ (List.mem_append_right _ (List.mem_map_of_mem hmem))
      exact mem_pagesBelow hbelow
  · refine ⟨by simp, by simp, fun _ => hown, by simp, fun x hx => ?_, by simp⟩
    rw [← Option.some.inj hx]
    exact List.mem_append_right _ List.mem_cons_self
  · intro j hj hji
    refine (h.producer j hj).other (fun hm => ⟨hm, fun _ hb => hb⟩) (fun b hb => ⟨hb, rfl⟩) hmade ?_
    intro q hq hlt hmem
    rw [State.setProducer, List.map_append] at hmem
    rcases List.mem_append.mp hmem with hmem | hmem
    · exact (h.producer j hj).fresh q hq hlt hmem
    · exact hinv.fresh_ne hi hj hji hpc hq hlt (List.mem_singleton.mp hmem)
  · exact fun j hj q page' hmem => hmade _ (h.full j hj q page' hmem)

/-- The page is ready: its buffer is the producer's no more. -/
theorem DataInv.publish_step (h : DataInv job s g owner done) (hinv : Inv job s g)
    (hi : i < job.numThreads) {pfn : Nat} {page : Option D}
    (hpc : (s.producers i).pc = .publish pfn page) {f : PageFlag} :
    ∃ owner', DataInv job ((s.setFlag i (s.producers i).pos f).setProducer i
      { s.producers i with
        pos := nextFlag (s.producers i).pos
        pc := if page.isNone then .poll else .lockData })
      { g with queue := Function.update g.queue i ((g.queue i).dropLast ++
          [.full pfn (page.map fun data => ((s.producers i).index, data))]) } owner' done := by
  have hd := h.producer i hi
  have hown := hd.holds (by rw [hpc]; trivial)
  have hmade := hd.made (pfn, page) (by rw [hpc]; rfl)
  obtain ⟨l, hq, -⟩ := (hinv.thread i hi).busy (by rw [hpc]; rfl)
  rw [hq, List.dropLast_concat]
  have hmem : ∀ {x : Slot D}, ∀ j q b, .full q b ∈ Function.update g.queue i (l ++ [x]) j →
      .full q b ∈ g.queue j ∨ j = i ∧ x = .full q b := by
    intro x j q b hmem
    by_cases hji : j = i
    · subst hji
      rw [Function.update_self] at hmem
      rcases List.mem_append.mp hmem with hmem | hmem
      · exact .inl (hq ▸ List.mem_append_left _ hmem)
      · exact .inr ⟨rfl, (List.mem_singleton.mp hmem).symm⟩
    · rw [Function.update_of_ne hji] at hmem
      exact .inl hmem
  have hfront : ∀ x : Slot D, ∀ n q b l', g.queue n = .full q b :: l' →
      ∃ l'', Function.update g.queue i (l ++ [x]) n = .full q b :: l'' := by
    intro x n q b l' hn
    by_cases hni : n = i
    · subst hni
      rw [hq] at hn
      cases l with
      | nil => cases hn
      | cons y l =>
        cases hn
        exact ⟨l ++ [x], by rw [Function.update_self, List.cons_append]⟩
    · exact ⟨l', by rw [Function.update_of_ne hni, hn]⟩
  cases page with
  | none =>
    refine ⟨owner, h.quiet_step (frame_setFlag _ i _ _ _) rfl rfl rfl (fun _ hx _ => hx)
      (fun _ _ hj => hj) ?_ ?_ (hfront _) rfl⟩
    · exact ⟨by simp, by simp, fun _ => hown, by simp, by simp, by simp⟩
    · intro j hj q b hb
      rcases hmem j q b hb with hold | ⟨-, hnew⟩
      · exact .inl hold
      · cases hnew
        exact .inr ⟨rfl, hmade⟩
  | some data =>
    have hdata := hd.data data (by rw [hpc]; rfl)
    have hne : ∀ {b o}, owner b = o → o ≠ .producer i → b ≠ (s.producers i).index := by
      rintro b o hb ho rfl
      exact ho (hb.symm.trans hown)
    refine ⟨Function.update owner (s.producers i).index (.page pfn),
      h.producer_local (frame_setFlag _ i _ _ _) rfl (fun _ hx => hx) h.nodup h.made_lt ?_ ?_ ?_ ?_
          ?_
        (hfront _) rfl⟩
    · exact ⟨by simp, by simp, by simp, by simp, by simp, by simp⟩
    · intro j hj hji
      refine (h.producer j hj).other (fun hm => ⟨hm, fun _ hb => hb⟩) (fun b hb => ⟨?_, rfl⟩)
        (fun _ hx => hx) (h.producer j hj).fresh
      rw [Function.update_of_ne (hne hb fun he => hji (Owner.producer.inj he))]
      exact hb
    · intro b
      refine (h.used b).trans ?_
      by_cases hb : b = (s.producers i).index
      · rw [hb, hown, Function.update_self]
        exact ⟨by simp, by simp⟩
      · rw [Function.update_of_ne hb]
    · intro j hj q b hb
      rcases hmem j q b hb with hold | ⟨-, hnew⟩
      · exact h.full j hj q b hold
      · cases hnew
        exact hmade
    · intro j hj q b data' hb hfreed
      rcases hmem j q _ hb with hold | ⟨-, hnew⟩
      · obtain ⟨ho, hbuf⟩ := h.buffer j hj q b data' hold hfreed
        rw [Function.update_of_ne (hne ho (by simp))]
        exact ⟨ho, hbuf⟩
      · cases hnew
        exact ⟨Function.update_self _ _ _, hdata⟩

/-- **The steps of a producer** keep the invariant. -/
theorem DataInv.producer_step (h : DataInv job s g owner done) (hinv : Inv job s g)
    (hi : i < job.numThreads) {result : Option (Option D)}
    (hs : producerStep job s i result = some s') :
    ∃ owner', DataInv job s' (g.producerStep job.endPfn i (s.producers i)) owner' done := by
  have hd := h.producer i hi
  have ht := hinv.thread i hi
  unfold producerStep at hs
  unfold Ghost.producerStep
  cases hpc : (s.producers i).pc with
  | lockData =>
    simp only [hpc] at hs ⊢
    split at hs
    case isTrue hnone =>
      cases hs
      refine ⟨owner, h.goto_step ⟨rfl, fun _ _ => rfl, rfl, rfl, rfl⟩ rfl rfl rfl (fun _ hx _ => hx)
        ?_ ?_⟩
      · exact fun j _ hj => absurd (hnone.symm.trans hj) (by simp)
      · exact ⟨fun _ => rfl, by simp, by simp, by simp, by simp, by simp⟩
    case isFalse => cases hs
  | probe =>
    simp only [hpc] at hs ⊢
    have hmutex := hd.mutex (.inl hpc)
    split at hs
    case isTrue =>
      cases hs
      refine ⟨owner, h.goto_step (frame_setProducer _ i _) rfl rfl rfl (fun _ hx _ => hx)
        (fun _ _ hj => hj) ?_⟩
      exact ⟨fun _ => hmutex, by simp, by simp, by simp, by simp, by simp⟩
    case isFalse hused =>
      cases hs
      refine ⟨owner, h.goto_step (frame_setProducer _ i _) rfl rfl rfl (fun _ hx _ => hx)
        (fun _ _ hj => hj) ?_⟩
      exact ⟨fun _ => hmutex, fun _ => Bool.eq_false_iff.mpr hused, by simp, by simp, by simp,
        by simp⟩
  | claim =>
    simp only [hpc] at hs ⊢
    have hmutex := hd.mutex (.inr hpc)
    have hfree : owner (s.producers i).index = .free := by
      by_contra hne
      have := (h.used _).mpr hne
      rw [hd.claim hpc] at this
      cases this
    cases hs
    have hframe : Frame s (({ s with dataMutex := none }.setBuffer (s.producers i).index
        { s.buffers (s.producers i).index with used := true }).setProducer i
        { s.producers i with pc := .poll }) i { s.producers i with pc := .poll } :=
      ⟨rfl, fun _ _ => rfl, rfl, rfl, rfl⟩
    refine ⟨_, h.own_step hframe rfl rfl rfl rfl (.inl hfree) (o := .producer i)
      (iff_of_true rfl (by simp)) ?_ ?_⟩
    · intro j hji hj
      rw [hmutex] at hj
      exact absurd (Option.some.inj hj).symm hji
    · exact ⟨by simp, by simp, fun _ => Function.update_self _ _ _, by simp, by simp, by simp⟩
  | poll =>
    simp only [hpc] at hs ⊢
    have hown := hd.holds (by rw [hpc]; trivial)
    split at hs
    case isTrue =>
      cases hs
      exact ⟨owner, h⟩
    case isFalse =>
      cases hs
      refine ⟨owner, h.goto_step (frame_setProducer _ i _) rfl rfl rfl (fun _ hx _ => hx)
        (fun _ _ hj => hj) ?_⟩
      exact ⟨by simp, by simp, fun _ => hown, by simp, by simp, by simp⟩
  | take =>
    simp only [hpc] at hs ⊢
    have hown := hd.holds (by rw [hpc]; trivial)
    have hle := @le_nextDumpable job s.currentPfn
    split at hs
    case isTrue =>
      cases hs
      refine ⟨owner, h.goto_step ⟨rfl, fun _ _ => rfl, rfl, rfl, rfl⟩ rfl rfl rfl ?_
        (fun _ _ hj => hj) ?_⟩
      · exact fun p hp _ => Nat.lt_succ_of_lt (Nat.lt_of_lt_of_le hp hle)
      · refine ⟨by simp, by simp, fun _ => hown, by simp, by simp, fun pfn hpfn _ hmem => ?_⟩
        obtain ⟨x, hx, rfl⟩ := List.mem_map.mp hmem
        have := (h.made_lt x hx).1
        have := Option.some.inj hpfn
        omega
    case isFalse => cases hs
  | mark pfn =>
    simp only [hpc] at hs ⊢
    have hown := hd.holds (by rw [hpc]; trivial)
    have hfresh := hd.fresh pfn (by rw [hpc]; rfl)
    cases hs
    refine ⟨owner, h.goto_step (frame_setFlag _ i _ _ _) rfl rfl rfl (fun _ hx _ => hx)
      (fun _ _ hj => hj) ?_⟩
    exact ⟨by simp, by simp, fun _ => hown, by simp, by simp,
      fun q hq => Option.some.inj hq ▸ hfresh⟩
  | fill pfn =>
    simp only [hpc] at hs ⊢
    have hown := hd.holds (by rw [hpc]; trivial)
    have hfresh := hd.fresh pfn (by rw [hpc]; rfl)
    cases hs
    have hframe : Frame s (({ s with pfnMutex := none }.setFlag i (s.producers i).pos
        { s.flags i (s.producers i).pos with ready := .filling }).setProducer i
        { s.producers i with pc := .post pfn }) i { s.producers i with pc := .post pfn } :=
      ⟨rfl, fun _ hj => Function.update_of_ne hj _ _, rfl, rfl, rfl⟩
    have hp : ∀ s'' : State D, s''.dataMutex = s.dataMutex → s''.buffers = s.buffers →
        s''.made = s.made →
        ProducerData job s'' owner i { s.producers i with pc := .post pfn } := by
      intro s'' _ _ hmade
      exact ⟨by simp, by simp, fun _ => hown, by simp, by simp,
        fun q hq => Option.some.inj hq ▸ hmade ▸ hfresh⟩
    split
    · exact ⟨owner, h.push_step hframe rfl rfl rfl rfl rfl (hp _ rfl rfl rfl) rfl rfl id⟩
    · exact ⟨owner, h.push_step hframe rfl rfl rfl rfl rfl (hp _ rfl rfl rfl) rfl rfl id⟩
  | post pfn =>
    simp only [hpc] at hs ⊢
    have hown := hd.holds (by rw [hpc]; trivial)
    have hfresh := hd.fresh pfn (by rw [hpc]; rfl)
    cases hs
    refine ⟨owner, h.goto_step ⟨rfl, fun _ _ => rfl, rfl, rfl, rfl⟩ rfl rfl rfl (fun _ hx _ => hx)
      (fun _ _ hj => hj) ?_⟩
    split
    · exact ⟨by simp, by simp, fun _ => hown, by simp, by simp, by simp⟩
    · exact ⟨by simp, by simp, fun _ => hown, by simp, by simp,
        fun q hq => Option.some.inj hq ▸ hfresh⟩
  | setEnd =>
    simp only [hpc] at hs ⊢
    have hown := hd.holds (by rw [hpc]; trivial)
    cases hs
    refine ⟨owner, h.goto_step ⟨rfl, fun _ _ => rfl, rfl, rfl, rfl⟩ rfl rfl rfl (fun _ _ hx => hx)
      (fun _ _ hj => hj) ?_⟩
    exact ⟨by simp, by simp, fun _ => hown, by simp, by simp, by simp⟩
  | giveBack =>
    simp only [hpc] at hs ⊢
    have hown := hd.holds (by rw [hpc]; trivial)
    cases hs
    refine ⟨_, h.own_step (frame_setBuffer _ i _ _ _) rfl rfl rfl rfl (.inr hown) (o := .free)
      ⟨by simp, fun hne => absurd rfl hne⟩ (fun _ _ hj => ⟨hj, by simp⟩) ?_⟩
    exact ⟨by simp, by simp, by simp, by simp, by simp, by simp⟩
  | produce pfn =>
    simp only [hpc] at hs ⊢
    cases result with
    | none =>
      cases hs
      refine ⟨owner, h.goto_step (frame_setProducer _ i _) rfl rfl rfl (fun _ hx _ => hx)
        (fun _ _ hj => hj) ?_⟩
      exact ⟨by simp, by simp, by simp, by simp, by simp, by simp⟩
    | some page =>
      cases hs
      exact ⟨owner, h.produce_step hinv hi hpc page⟩
  | setZero pfn page =>
    simp only [hpc] at hs ⊢
    have hown := hd.holds (by rw [hpc]; trivial)
    have hmade := hd.made (pfn, page) (by rw [hpc]; rfl)
    cases hs
    refine ⟨owner, h.goto_step (frame_setFlag _ i _ _ _) rfl rfl rfl (fun _ hx _ => hx)
      (fun _ _ hj => hj) ?_⟩
    cases page with
    | none =>
      exact ⟨by simp, by simp, fun _ => hown, by simp, fun x hx => Option.some.inj hx ▸ hmade,
        by simp⟩
    | some data =>
      exact ⟨by simp, by simp, fun _ => hown, by simp, fun x hx => Option.some.inj hx ▸ hmade,
        by simp⟩
  | copy pfn data =>
    simp only [hpc] at hs ⊢
    have hown := hd.holds (by rw [hpc]; trivial)
    have hmade := hd.made (pfn, some data) (by rw [hpc]; rfl)
    have hused := (h.used (s.producers i).index).mpr (by rw [hown]; simp)
    cases hs
    refine ⟨_, h.own_step (frame_setBuffer _ i _ _ _) rfl rfl rfl rfl (.inr hown) (o := .producer i)
      ⟨by simp, fun _ => hused⟩ (fun _ _ hj => ⟨hj, id⟩) ?_⟩
    refine ⟨by simp, by simp, fun _ => Function.update_self _ _ _, fun x hx => ?_,
      fun x hx => Option.some.inj hx ▸ hmade, by simp⟩
    rw [← Option.some.inj hx]
    simp [State.setProducer, State.setBuffer]
  | setIndex pfn data =>
    simp only [hpc] at hs ⊢
    have hown := hd.holds (by rw [hpc]; trivial)
    have hmade := hd.made (pfn, some data) (by rw [hpc]; rfl)
    have hdata := hd.data data (by rw [hpc]; rfl)
    cases hs
    refine ⟨owner, h.goto_step (frame_setFlag _ i _ _ _) rfl rfl rfl (fun _ hx _ => hx)
      (fun _ _ hj => hj) ?_⟩
    exact ⟨by simp, by simp, fun _ => hown, fun x hx => Option.some.inj hx ▸ hdata,
      fun x hx => Option.some.inj hx ▸ hmade, by simp⟩
  | publish pfn page =>
    simp only [hpc] at hs ⊢
    cases hs
    exact h.publish_step hinv hi hpc
  | done =>
    simp only [hpc] at hs
    cases hs
  | left =>
    simp only [hpc] at hs
    cases hs

/-! ## Steps of the consumer -/

/-- A step of the consumer that leaves the buffers and the rings. -/
theorem DataInv.consumer_goto (h : DataInv job s g owner done)
    (hproducers : s'.producers = s.producers)
    (hbuffers : s'.buffers = s.buffers) (hmutex : s'.dataMutex = s.dataMutex)
    (hcur : s'.currentPfn = s.currentPfn) (hmade : s'.made = s.made)
    (hfreed : ∀ pfn, freed s g = some pfn → freed s' g = some pfn)
    (hwritten : WrittenPages s' g done) : DataInv job s' g owner done := by
  refine ⟨hbuffers ▸ h.used, fun j hj => ?_, hmade ▸ h.full, ?_, hwritten, h.eaten,
    hmade ▸ h.done_made,
    hmade ▸ h.nodup, by rw [hmade, hcur]; exact h.made_lt⟩
  · rw [hproducers]
    refine (h.producer j hj).other (fun hm => ⟨hmutex ▸ hm, fun b hb => hbuffers ▸ hb⟩)
      (fun b hb => ⟨hb, by rw [hbuffers]⟩) (fun x hx => hmade ▸ hx)
      (hmade ▸ (h.producer j hj).fresh)
  · intro j hj pfn b data hmem hne
    rw [hbuffers]
    exact h.buffer j hj pfn b data hmem fun hp => hne (hfreed pfn hp)

/-- The buffer of the page that was written is given back. -/
theorem DataInv.release_step (h : DataInv job s g owner done) (hinv : Inv job s g) {t : Nat}
    {index : Int} (hpc : s.consumer = .release t index) :
    ∃ owner', DataInv job { s.setBuffer index { s.buffers index with used := false } with
      consumer := .unuse t } g owner' done := by
  have hc := hinv.consumer
  rw [hpc] at hc
  obtain ⟨b, data, ⟨pfn, rest, l, hp, hq⟩, rfl⟩ := hc
  have ht : t < job.numThreads := hinv.inside (t, pfn) (hp ▸ List.mem_cons_self)
  have hfreed : freed s g = none := by
    unfold freed
    rw [hpc]
  have hown := (h.buffer t ht pfn b data (hq ▸ List.mem_cons_self) (by rw [hfreed]; simp)).1
  have hne : ∀ {c o}, owner c = o → o ≠ .page pfn → c ≠ b := by
    rintro c o hc ho rfl
    exact ho (hc.symm.trans hown)
  have hsame : ∀ {c : Nat} {x : PageData D}, c ≠ b →
      Function.update s.buffers (b : Int) x c = s.buffers c :=
    fun hc => Function.update_of_ne (Int.ofNat_inj.not.mpr hc) _ _
  refine ⟨Function.update owner b .free, ?_, fun j hj => ?_, h.full, ?_, ?_, h.eaten, h.done_made,
    h.nodup, h.made_lt⟩
  · intro c
    by_cases hcb : c = b
    · subst hcb
      simp [State.setBuffer]
    · rw [Function.update_of_ne hcb]
      simp only [State.setBuffer, hsame hcb]
      exact h.used c
  · refine (h.producer j hj).other (fun hm => ⟨hm, fun c hc => ?_⟩) (fun c hc => ?_)
      (fun x hx => hx) (h.producer j hj).fresh
    · by_cases hcb : c = b
      · subst hcb
        simp [State.setBuffer] at hc
      · simpa [State.setBuffer, Function.update_of_ne hcb] using hc
    · have hcb := hne hc (by simp)
      rw [Function.update_of_ne hcb]
      simpa [State.setBuffer, hsame hcb] using hc
  · intro j hj q c data' hmem hnf
    obtain ⟨hc, hdata⟩ := h.buffer j hj q c data' hmem (by rw [hfreed]; simp)
    have hqp : q ≠ pfn := by
      rintro rfl
      refine hnf ?_
      simp [freed, hq, Slot.pfn]
    have hcb := hne hc fun ho => hqp (Owner.page.inj ho)
    rw [Function.update_of_ne hcb]
    simp only [State.setBuffer, hsame hcb]
    exact ⟨hc, hdata⟩
  · have hw := h.written
    unfold WrittenPages at hw
    rw [hpc] at hw
    exact hw

/-- The mark of a producer is taken. -/
theorem DataInv.unmark_step (h : DataInv job s g owner done) {i current consuming : Nat}
    (hpc : s.consumer = .unmark i current consuming) :
    DataInv job { s.setFlag i (s.rings i) { s.flags i (s.rings i) with ready := .unused } with
      endCount := s.endCount + 1, consumer := .scan (i + 1) current consuming }
      (g.consumerStep (.unmark i current consuming)) owner done := by
  have hmem : ∀ j x, x ∈ Function.update g.queue i [] j → x ∈ g.queue j := by
    intro j x hx
    by_cases hji : j = i
    · subst hji
      rw [Function.update_self] at hx
      cases hx
    · rwa [Function.update_of_ne hji] at hx
  have hfreed : freed s g = none := by
    unfold freed
    rw [hpc]
  have hw := h.written
  unfold WrittenPages at hw
  rw [hpc] at hw
  refine ⟨h.used, fun j hj => ?_, fun j hj q b hb => h.full j hj q b (hmem j _ hb), ?_, hw, h.eaten,
    h.done_made, h.nodup, h.made_lt⟩
  · exact (h.producer j hj).other (fun hm => ⟨hm, fun _ hb => hb⟩) (fun _ hb => ⟨hb, rfl⟩)
      (fun _ hx => hx) (h.producer j hj).fresh
  · exact fun j hj q b data hb _ => h.buffer j hj q b data (hmem j _ hb) (by rw [hfreed]; simp)

/-- The consumer has done with the first page. -/
theorem DataInv.unuse_step (h : DataInv job s g owner done) (hinv : Inv job s g) {t : Nat}
    (hpc : s.consumer = .unuse t) :
    ∃ done', DataInv job
      { s.setFlag t (s.rings t) { s.flags t (s.rings t) with ready := .unused } with
        rings := Function.update s.rings t (nextFlag (s.rings t)), consumer := .wait }
      (g.consumerStep (.unuse t)) owner done' := by
  have hc := hinv.consumer
  rw [hpc] at hc
  obtain ⟨page, pfn, rest, l, hp, hq⟩ := hc
  have ht : t < job.numThreads := hinv.inside (t, pfn) (hp ▸ List.mem_cons_self)
  have hnodup : (g.pending.map Prod.snd).Nodup := hinv.pending_sorted.imp Nat.ne_of_lt
  have hghost : g.consumerStep (.unuse t) =
      { queue := Function.update g.queue t l, pending := rest, eaten := g.eaten ++ [pfn] } := by
    simp [Ghost.consumerStep, hp, hq]
  have hmade := h.full t ht pfn page (hq ▸ List.mem_cons_self)
  have hw := h.written
  unfold WrittenPages at hw
  rw [hpc] at hw
  obtain ⟨pfn', page', l', hq', hw⟩ := hw
  rw [hq] at hq'
  cases hq'
  have hmem : ∀ j x, x ∈ Function.update g.queue t l j → x ∈ g.queue j := by
    intro j x hx
    by_cases hjt : j = t
    · subst hjt
      rw [Function.update_self] at hx
      exact hq ▸ List.mem_cons_of_mem _ hx
    · rwa [Function.update_of_ne hjt] at hx
  rw [hghost]
  refine ⟨done ++ [(pfn, page.map Prod.snd)], h.used, fun j hj => ?_, ?_, ?_, ?_, ?_, ?_, h.nodup,
    h.made_lt⟩
  · exact (h.producer j hj).other (fun hm => ⟨hm, fun _ hb => hb⟩) (fun _ hb => ⟨hb, rfl⟩)
      (fun _ hx => hx) (h.producer j hj).fresh
  · exact fun j hj q b hb => h.full j hj q b (hmem j _ hb)
  · intro j hj q b data hb _
    refine h.buffer j hj q b data (hmem j _ hb) ?_
    unfold freed
    rw [hpc]
    dsimp only
    rw [hq]
    -- another page in the rings is another page
    intro hpq
    obtain rfl : pfn = q := Option.some.inj hpq
    have hfirst := hinv.mem_pending hj (hmem j _ hb) rfl
    have := List.inj_on_of_nodup_map hnodup hfirst (hp ▸ List.mem_cons_self : (t, pfn) ∈ g.pending)
      rfl
    obtain rfl : j = t := congrArg Prod.fst this
    dsimp only at hb
    rw [Function.update_self] at hb
    have hrest := hinv.pending j hj
    rw [hq, hp, List.filter_cons_of_pos (by simp)] at hrest
    have htail := (List.cons.inj (show pfn :: l.filterMap Slot.pfn =
      pfn :: (rest.filter (·.1 = j)).map Prod.snd from hrest)).2
    have hin : pfn ∈ l.filterMap Slot.pfn := List.mem_filterMap.mpr ⟨_, hb, rfl⟩
    rw [htail] at hin
    obtain ⟨e, he, hep⟩ := List.mem_map.mp hin
    rw [hp, List.map_cons, List.nodup_cons] at hnodup
    exact hnodup.1 (List.mem_map.mpr ⟨e, List.mem_of_mem_filter he, hep⟩)
  · unfold WrittenPages
    dsimp only [State.setFlag]
    rw [List.map_append]
    exact hw
  · rw [List.map_append, h.eaten]
    rfl
  · intro x hx
    rcases List.mem_append.mp hx with hx | hx
    · exact h.done_made x hx
    · rw [List.mem_singleton.mp hx]
      exact hmade

/-- **The steps of the consumer** keep the invariant. -/
theorem DataInv.consumer_step (h : DataInv job s g owner done) (hinv : Inv job s g) {fails : Bool}
    (hs : consumerStep job s fails = some s') :
    ∃ owner' done', DataInv job s' (g.consumerStep s.consumer) owner' done' := by
  have hc := hinv.consumer
  have hw := h.written
  unfold WrittenPages at hw
  unfold consumerStep at hs
  have hfreed : (∀ t, s.consumer ≠ .unuse t) → ∀ pfn, freed s g = some pfn →
      freed s' g = some pfn := by
    intro hne pfn hp
    unfold freed at hp
    split at hp
    case h_1 t ht => exact absurd ht (hne t)
    case h_2 => cases hp
  cases hpc : s.consumer with
  | wait =>
    simp only [hpc] at hs hw
    split at hs
    · cases hs
      exact ⟨owner, done, h.consumer_goto rfl rfl rfl rfl rfl (hfreed (by rw [hpc]; simp)) hw⟩
    · cases hs
  | scan i current consuming =>
    simp only [hpc] at hs hw
    split at hs
    · split at hs
      · cases hs
        exact ⟨owner, done, h.consumer_goto rfl rfl rfl rfl rfl (hfreed (by rw [hpc]; simp)) hw⟩
      · cases hs
        exact ⟨owner, done, h.consumer_goto rfl rfl rfl rfl rfl (hfreed (by rw [hpc]; simp)) hw⟩
    · split at hs
      · cases hs
        exact ⟨owner, done, h.consumer_goto rfl rfl rfl rfl rfl (hfreed (by rw [hpc]; simp)) hw⟩
      · cases hs
        exact ⟨owner, done, h.consumer_goto rfl rfl rfl rfl rfl (hfreed (by rw [hpc]; simp)) hw⟩
  | look i current consuming =>
    simp only [hpc] at hs hw
    split at hs
    · cases hs
      exact ⟨owner, done, h.consumer_goto rfl rfl rfl rfl rfl (hfreed (by rw [hpc]; simp)) hw⟩
    · split at hs
      · cases hs
        exact ⟨owner, done, h.consumer_goto rfl rfl rfl rfl rfl (hfreed (by rw [hpc]; simp)) hw⟩
      · cases hs
        exact ⟨owner, done, h.consumer_goto rfl rfl rfl rfl rfl (hfreed (by rw [hpc]; simp)) hw⟩
  | unmark i current consuming =>
    simp only [hpc] at hs hw
    cases hs
    exact ⟨owner, done, h.unmark_step hpc⟩
  | check current consuming =>
    simp only [hpc] at hs hw
    split at hs
    · cases hs
      exact ⟨owner, done, h.consumer_goto rfl rfl rfl rfl rfl (hfreed (by rw [hpc]; simp)) hw⟩
    · split at hs
      · cases hs
        exact ⟨owner, done, h.consumer_goto rfl rfl rfl rfl rfl (hfreed (by rw [hpc]; simp)) hw⟩
      · cases hs
        exact ⟨owner, done, h.consumer_goto rfl rfl rfl rfl rfl (hfreed (by rw [hpc]; simp)) hw⟩
  | confirm current consuming =>
    simp only [hpc] at hs hw
    split at hs
    · cases hs
      exact ⟨owner, done, h.consumer_goto rfl rfl rfl rfl rfl (hfreed (by rw [hpc]; simp)) hw⟩
    · cases hs
      exact ⟨owner, done, h.consumer_goto rfl rfl rfl rfl rfl (hfreed (by rw [hpc]; simp)) hw⟩
  | readZero consuming =>
    rw [hpc] at hc
    simp only [hpc] at hs hw
    split at hs
    case isTrue hzero =>
      split at hs
      · cases hs
        exact ⟨owner, done, h.consumer_goto rfl rfl rfl rfl rfl (hfreed (by rw [hpc]; simp)) hw⟩
      · cases hs
        refine ⟨owner, done, h.consumer_goto rfl rfl rfl rfl rfl (hfreed (by rw [hpc]; simp)) ?_⟩
        obtain ⟨page, pfn, rest, l, hp, hq⟩ := hc
        have ht : consuming < job.numThreads := hinv.inside (consuming, pfn)
          (hp ▸ List.mem_cons_self)
        have hholds := (hq ▸ (hinv.thread consuming ht).ring).holds_head
        cases page with
        | none => exact ⟨pfn, none, l, hq, by rw [hw]; rfl⟩
        | some x => exact absurd (hzero.symm.trans hholds.2.2.1) (by simp)
    case isFalse =>
      cases hs
      exact ⟨owner, done, h.consumer_goto rfl rfl rfl rfl rfl (hfreed (by rw [hpc]; simp)) hw⟩
  | readIndex consuming =>
    simp only [hpc] at hs hw
    cases hs
    exact ⟨owner, done, h.consumer_goto rfl rfl rfl rfl rfl (hfreed (by rw [hpc]; simp)) hw⟩
  | write consuming index =>
    rw [hpc] at hc
    simp only [hpc] at hs hw
    split at hs
    · cases hs
      exact ⟨owner, done, h.consumer_goto rfl rfl rfl rfl rfl (hfreed (by rw [hpc]; simp)) hw⟩
    · cases hs
      refine ⟨owner, done, h.consumer_goto rfl rfl rfl rfl rfl (hfreed (by rw [hpc]; simp)) ?_⟩
      obtain ⟨b, data, ⟨pfn, rest, l, hp, hq⟩, rfl⟩ := hc
      have ht : consuming < job.numThreads := hinv.inside (consuming, pfn) (hp ▸ List.mem_cons_self)
      have hbuf := (h.buffer consuming ht pfn b data (hq ▸ List.mem_cons_self) (by
        unfold freed
        rw [hpc]
        simp)).2
      refine ⟨pfn, some (b, data), l, hq, ?_⟩
      rw [hw, hbuf]
      rfl
  | release consuming index =>
    simp only [hpc] at hs
    cases hs
    obtain ⟨owner', h'⟩ := h.release_step hinv hpc
    exact ⟨owner', done, h'⟩
  | unuse consuming =>
    simp only [hpc] at hs
    cases hs
    obtain ⟨done', h'⟩ := h.unuse_step hinv hpc
    exact ⟨owner, done', h'⟩
  | finished =>
    simp only [hpc] at hs
    cases hs
  | failed =>
    simp only [hpc] at hs
    cases hs

/-! ## Whole runs -/

/-- All cells of the rings are free. -/
def Cleared (numThreads : Nat) (flags : Nat → Nat → PageFlag) (rings : Nat → Nat) : Prop :=
  ∀ i < numThreads, rings i < pageFlagNum ∧
    ∀ pos < pageFlagNum, (flags i pos).ready = .unused

variable {flags : Nat → Nat → PageFlag} {rings : Nat → Nat} {data : Int → D}

def Ghost.empty (D : Type) : Ghost D := { queue := fun _ => [], pending := [], eaten := [] }

theorem inv_create (hc : Cleared job.numThreads flags rings) (hlt : job.startPfn < job.endPfn) :
    Inv job (create job flags rings data) (.empty D) := by
  have hpc : ∀ i, ((create job flags rings data).producers i).pc = .lockData := fun _ => if_pos hlt
  constructor
  case start => exact ⟨Nat.le_refl _, hlt⟩
  case thread =>
    intro i hi
    obtain ⟨hring, hfree⟩ := hc i hi
    have hpos : (rings i + 0) % pageFlagNum = rings i := Nat.mod_eq_of_lt hring
    refine ⟨⟨hring, Nat.zero_le _, by intros; contradiction,
      fun k _ _ => hfree _ (Nat.mod_lt _ (by decide))⟩, ?_, ?_, ?_,
      ?_⟩
    · rw [hpc]
      exact ⟨by intros; contradiction, hpos.symm⟩
    · rw [hpc]
      trivial
    · show i < job.numBuffers
      have : job.numBuffers = 5 * job.numThreads := rfl
      omega
    · rw [hpc]
      trivial
  case pending => exact fun _ _ => rfl
  case inside => intros; contradiction
  case mutex =>
    intro i _ hsome
    rw [hpc] at hsome
    cases hsome
  case holder => intros; contradiction
  case order => exact pagesBelow_start.symm
  case sem =>
    have hzero : ∀ F : ProducerPc D → Nat, F .lockData = 0 →
        ∑ i ∈ Finset.range job.numThreads, F ((create job flags rings data).producers i).pc = 0 :=
      fun F hF => Finset.sum_eq_zero fun i _ => by rw [hpc, hF]
    rw [hzero unposted rfl, hzero (endedCount job.endPfn) rfl]
    rfl
  case endCount => exact (Finset.sum_eq_zero fun i _ => by rw [hpc]; rfl).symm
  case atEnd =>
    intro i _ hp
    rw [hpc] at hp
    cases hp
  case comingEnd =>
    intro i _ pfn hp
    rw [hpc] at hp
    cases hp
  case alone =>
    intro i _ pfn hp
    rw [hpc] at hp
    cases hp
  case consumer => trivial

theorem dataInv_create (hlt : job.startPfn < job.endPfn) :
    DataInv job (create job flags rings data) (.empty D) (fun _ => .free) [] := by
  have hpc : ∀ i, ((create job flags rings data).producers i).pc = .lockData := fun _ => if_pos hlt
  refine ⟨fun _ => ⟨by rintro ⟨⟩, fun hne => absurd rfl hne⟩, fun i _ => ?_,
    by intros; contradiction, by intros; contradiction, rfl, rfl, by simp, List.nodup_nil,
    by intros; contradiction⟩
  constructor <;> rw [hpc] <;> simp

/-- The invariant at some content of the rings. -/
def Safe (job : Job) (s : State D) : Prop :=
  ∃ g owner done, Inv job s g ∧ DataInv job s g owner done

theorem Safe.step (h : Safe job s) (hbuf : job.numBuffers ≤ 2 ^ 15) {action : Action D}
    (hs : step job s action = some s') : Safe job s' := by
  obtain ⟨g, owner, done, hinv, hdata⟩ := h
  cases action with
  | producer i result =>
    simp only [Parallel.step] at hs
    split at hs
    case isTrue hi =>
      obtain ⟨owner', hdata'⟩ := hdata.producer_step hinv hi hs
      exact ⟨_, owner', done, hinv.producer_step hi hbuf hs, hdata'⟩
    case isFalse => cases hs
  | consumer fails =>
    obtain ⟨owner', done', hdata'⟩ := hdata.consumer_step hinv hs
    exact ⟨_, owner', done', hinv.consumer_step hs, hdata'⟩

theorem Safe.run (hbuf : job.numBuffers ≤ 2 ^ 15) (actions : List (Action D)) (h : Safe job s)
    (hrun : run job s actions = some s') : Safe job s' := by
  induction actions generalizing s with
  | nil => exact Option.some.inj hrun ▸ h
  | cons action actions ih =>
    obtain ⟨s₁, hs, hrun⟩ := Option.bind_eq_some_iff.mp hrun
    exact ih (h.step hbuf hs) hrun

/-- Without a page to look at, the threads leave and nothing is written. -/
theorem run_nothing (hle : job.endPfn ≤ job.startPfn) (actions : List (Action D))
    (hrun : run job (create job flags rings data) actions = some s) :
    s = create job flags rings data := by
  cases actions with
  | nil => exact (Option.some.inj hrun).symm
  | cons action actions =>
    obtain ⟨s₁, hs, -⟩ := Option.bind_eq_some_iff.mp hrun
    cases action with
    | producer i result => simp [step, producerStep, create, Nat.not_lt.mpr hle] at hs
    | consumer fails => simp [step, consumerStep, create] at hs

theorem pagesBelow_isPrefix (job : Job) (pfn : Nat) : job.pagesBelow pfn <+: job.dumpablePfns := by
  have hsplit : job.endPfn - job.startPfn = (min pfn job.endPfn - job.startPfn) +
      ((job.endPfn - job.startPfn) - (min pfn job.endPfn - job.startPfn)) := by omega
  rw [Job.dumpablePfns, hsplit, ← List.range'_append_1, List.filter_append]
  exact List.prefix_append _ _

/-- The consumer has the marks of all producers. -/
theorem Inv.all_ended (h : Inv job s g) (hc : s.consumer = .finished) :
    ∀ i < job.numThreads, phase job.endPfn (s.producers i).pc = .ended ∧ g.queue i = [] := by
  have hall := h.consumer
  rw [hc] at hall
  have hle : ∀ i ∈ Finset.range job.numThreads,
      counted job.endPfn (s.producers i).pc (g.queue i) ≤ 1 := by
    intro i _
    unfold counted
    split <;> omega
  have hsum : ∑ i ∈ Finset.range job.numThreads, counted job.endPfn (s.producers i).pc (g.queue i) =
      ∑ _i ∈ Finset.range job.numThreads, 1 := by
    refine Nat.le_antisymm (Finset.sum_le_sum hle) ?_
    rw [← Finset.card_eq_sum_ones, Finset.card_range, ← h.endCount]
    exact hall
  intro i hi
  have hone := (Finset.sum_eq_sum_iff_of_le hle).mp hsum i (Finset.mem_range.mpr hi)
  unfold counted at hone
  split at hone
  case isTrue hyes => exact ⟨hyes.1, List.isEmpty_iff.mp hyes.2⟩
  case isFalse => cases hone

/-- At the end all pages are written. -/
theorem Inv.eaten_of_finished (h : Inv job s g) (hc : s.consumer = .finished)
    (hn : 0 < job.numThreads) :
    g.eaten = job.dumpablePfns ∧ Cleared job.numThreads s.flags s.rings := by
  have hended := h.all_ended hc
  have hnil : g.pending = [] := by
    cases hp : g.pending with
    | nil => rfl
    | cons e rest =>
      obtain ⟨t, pfn⟩ := e
      obtain ⟨ht, x, l, hq, -⟩ := h.front hp
      rw [(hended t ht).2] at hq
      cases hq
  have hcoming : s.comingPages job.endPfn = [] := by
    cases hm : s.pfnMutex with
    | none => exact (h.no_coming hm).2
    | some i =>
      obtain ⟨hi, hsome⟩ := h.holder i hm
      have hphase := (hended i hi).1
      cases hpc : (s.producers i).pc with
      | mark | fill =>
        rw [hpc] at hphase
        cases hphase
      | lockData | probe | claim | poll | take | post | setEnd | giveBack | produce | setZero | copy
      | setIndex | publish | done | left =>
        rw [hpc] at hsome
        cases hsome
  refine ⟨?_, fun i hi => ?_⟩
  · have horder := h.order
    rw [hnil, hcoming, pagesBelow_end (h.atEnd 0 hn (hended 0 hn).1)] at horder
    simpa using horder
  · have hring := (h.thread i hi).ring
    rw [(hended i hi).2] at hring
    refine ⟨hring.start, fun pos hpos => ?_⟩
    -- every cell is some way behind the first one
    have hk : (s.rings i + (pos + pageFlagNum - s.rings i) % pageFlagNum) % pageFlagNum = pos := by
      have := hring.start
      rw [Nat.add_mod_mod, show s.rings i + (pos + pageFlagNum - s.rings i) = pos + pageFlagNum
        by omega,
        Nat.add_mod_right, Nat.mod_eq_of_lt hpos]
    have := hring.free _ (Nat.zero_le _) (Nat.mod_lt (pos + pageFlagNum - s.rings i) (by decide))
    rwa [hk] at this

/-- The pages that are written. -/
theorem DataInv.pages (h : DataInv job s g owner done) (hinv : Inv job s g) :
    ∃ pages : List (Nat × Option D), pages.map Prod.snd = s.written ∧
      pages.map Prod.fst <+: job.dumpablePfns ∧ (∀ x ∈ pages, x ∈ s.made) ∧
      (s.consumer = .finished → pages.map Prod.fst = g.eaten) := by
  have hprefix := pagesBelow_isPrefix job s.currentPfn
  rw [← hinv.order, List.append_assoc] at hprefix
  have hlast : ∀ t, (∃ page, Front g t page) →
      (∃ pfn page l, g.queue t = .full pfn page :: l ∧
        s.written = done.map Prod.snd ++ [page.map Prod.snd]) →
      ∃ pages : List (Nat × Option D), pages.map Prod.snd = s.written ∧
        pages.map Prod.fst <+: job.dumpablePfns ∧ ∀ x ∈ pages, x ∈ s.made := by
    rintro t ⟨page, pfn, rest, l, hp, hq⟩ ⟨pfn', page', l', hq', hw⟩
    rw [hq] at hq'
    cases hq'
    have ht : t < job.numThreads := hinv.inside (t, pfn) (hp ▸ List.mem_cons_self)
    refine ⟨done ++ [(pfn, page.map Prod.snd)], by rw [hw, List.map_append]; rfl, ?_, ?_⟩
    · rw [List.map_append, h.eaten]
      rw [hp, List.map_cons] at hprefix
      refine List.IsPrefix.trans ?_ hprefix
      exact ⟨rest.map Prod.snd ++ s.comingPages job.endPfn, by simp⟩
    · intro x hx
      rcases List.mem_append.mp hx with hx | hx
      · exact h.done_made x hx
      · rw [List.mem_singleton.mp hx]
        exact h.full t ht pfn page (hq ▸ List.mem_cons_self)
  have hw := h.written
  have hc := hinv.consumer
  unfold WrittenPages at hw
  cases hpc : s.consumer with
  | release t index =>
    rw [hpc] at hw hc
    obtain ⟨b, data, hfront, -⟩ := hc
    obtain ⟨pages, h1, h2, h3⟩ := hlast t ⟨_, hfront⟩ hw
    exact ⟨pages, h1, h2, h3, by simp⟩
  | unuse t =>
    rw [hpc] at hw hc
    obtain ⟨pages, h1, h2, h3⟩ := hlast t hc hw
    exact ⟨pages, h1, h2, h3, by simp⟩
  | wait | scan | look | unmark | check | confirm | readZero | readIndex | write | finished |
    failed =>
    rw [hpc] at hw
    refine ⟨done, hw.symm, ?_, h.done_made, fun _ => h.eaten⟩
    rw [h.eaten]
    exact (List.prefix_append _ _).trans hprefix

theorem safe_of_run (hbuf : job.numBuffers ≤ 2 ^ 15) (hc : Cleared job.numThreads flags rings)
    (hlt : job.startPfn < job.endPfn) (actions : List (Action D))
    (hrun : run job (create job flags rings data) actions = some s) : Safe job s :=
  Safe.run hbuf actions ⟨_, _, _, inv_create hc hlt, dataInv_create hlt⟩ hrun

theorem Safe.pages (h : Safe job s) (hn : 0 < job.numThreads) :
    ∃ pages : List (Nat × Option D), pages.map Prod.snd = s.written ∧
      pages.map Prod.fst <+: job.dumpablePfns ∧ (∀ x ∈ pages, x ∈ s.made) ∧
      (s.made.map Prod.fst).Nodup ∧
      (s.consumer = .finished → pages.map Prod.fst = job.dumpablePfns ∧
        Cleared job.numThreads s.flags s.rings) := by
  obtain ⟨g, owner, done, hinv, hdata⟩ := h
  obtain ⟨pages, hwritten, hprefix, hmade, heaten⟩ := hdata.pages hinv
  refine ⟨pages, hwritten, hprefix, hmade, hdata.nodup, fun hfin => ?_⟩
  rw [heaten hfin]
  exact hinv.eaten_of_finished hfin hn

theorem runThreads_run {page : Nat → Option D} {s s' : State D} (order : List Choice)
    (h : runThreads page job s order = some s') : ∃ actions, run job s actions = some s' := by
  induction order generalizing s with
  | nil => exact ⟨[], h⟩
  | cons choice order ih =>
    obtain ⟨s₁, hs, h⟩ := Option.bind_eq_some_iff.mp h
    obtain ⟨actions, hrun⟩ := ih h
    exact ⟨choice.action page s :: actions, Option.bind_eq_some_iff.mpr ⟨s₁, hs, hrun⟩⟩

/-- A page is made by the producer that is to make it. -/
theorem made_of_producerStep {s s' : State D} {n : Nat} {result : Option (Option D)}
    (hs : producerStep job s n result = some s') :
    s'.made = s.made ∨ ∃ pfn made, (s.producers n).pc = .produce pfn ∧ result = some made ∧
      s'.made = s.made ++ [(pfn, made)] := by
  unfold producerStep at hs
  cases hpc : (s.producers n).pc with
  | produce pfn =>
    simp only [hpc] at hs
    cases result with
    | none =>
      cases hs
      exact .inl rfl
    | some page =>
      cases hs
      exact .inr ⟨pfn, page, rfl, rfl, rfl⟩
  | lockData | probe | poll | take =>
    simp only [hpc] at hs
    split at hs <;> cases hs <;> exact .inl rfl
  | claim | mark | fill | post | setEnd | giveBack | setZero | copy | setIndex | publish =>
    simp only [hpc] at hs
    cases hs
    exact .inl rfl
  | done | left =>
    simp only [hpc] at hs
    cases hs

theorem made_of_consumerStep {s s' : State D} {fails : Bool}
    (hs : consumerStep job s fails = some s') : s'.made = s.made := by
  unfold consumerStep at hs
  cases hpc : s.consumer <;> simp only [hpc] at hs <;> (repeat' split at hs) <;> cases hs <;> rfl

theorem made_of_run {page : Nat → Option D} {s s' : State D} (order : List Choice)
    (h : runThreads page job s order = some s') (hmade : ∀ x ∈ s.made, x.2 = page x.1) :
    ∀ x ∈ s'.made, x.2 = page x.1 := by
  induction order generalizing s with
  | nil =>
    cases h
    exact hmade
  | cons choice order ih =>
    obtain ⟨s₁, hs, h⟩ := Option.bind_eq_some_iff.mp h
    refine ih h ?_
    cases choice with
    | consumer fails =>
      rw [made_of_consumerStep hs]
      exact hmade
    | producer n fails =>
      simp only [step, Choice.action] at hs
      split at hs
      case isFalse => cases hs
      case isTrue =>
        rcases made_of_producerStep hs with heq | ⟨pfn, made, hpc, hresult, heq⟩
        · rw [heq]
          exact hmade
        · rw [heq]
          intro x hx
          rcases List.mem_append.mp hx with hx | hx
          · exact hmade x hx
          · rw [List.mem_singleton.mp hx]
            rw [hpc] at hresult
            dsimp only at hresult
            split at hresult
            · cases hresult
            · exact (Option.some.inj hresult).symm

/-- **A cycle that finishes** writes its dumpable pages, as they are made. -/
theorem written_of_runThreads {page : Nat → Option D} {flags : Nat → Nat → PageFlag}
    {rings : Nat → Nat}
    {data : Int → D} {s : State D} (hn : 0 < job.numThreads)
    (hbuf : job.numBuffers ≤ 2 ^ 15) (hc : Cleared job.numThreads flags rings) (order : List Choice)
    (hrun : runThreads page job (create job flags rings data) order = some s)
    (hfin : s.consumer = .finished) :
    s.written = job.dumpablePfns.map page ∧ Cleared job.numThreads s.flags s.rings := by
  obtain ⟨actions, hactions⟩ := runThreads_run order hrun
  have hlt : job.startPfn < job.endPfn := by
    by_contra hle
    rw [run_nothing (Nat.not_lt.mp hle) actions hactions] at hfin
    cases hfin
  obtain ⟨pages, hwritten, -, hmade, -, hall⟩ := (safe_of_run hbuf hc hlt actions hactions).pages hn
  obtain ⟨hpfns, hclear⟩ := hall hfin
  refine ⟨?_, hclear⟩
  have hmake := made_of_run order hrun (by intros; contradiction)
  rw [← hwritten, ← hpfns, List.map_map]
  exact List.map_congr_left fun x hx => hmake x (hmade x hx)

/-- Two producers, and the pages 3 and 5. -/
def twoThreads : Job where
  numThreads := 2
  startPfn := 2
  endPfn := 6
  isDumpable := fun pfn => pfn % 2 = 1

/-- The second producer has its page ready before the first one has read the page in front of it. -/
def secondFirst : List (Action Nat) :=
  let producer (n k : Nat) : List (Action Nat) := List.replicate k (.producer n none)
  let consumer (k : Nat) : List (Action Nat) := List.replicate k (.consumer false)
  producer 0 8 ++ producer 1 8 ++ [.producer 1 (some (some 55))] ++ producer 1 4 ++ consumer 6 ++
    [.producer 0 (some none)] ++ producer 0 2 ++ consumer 16 ++ producer 0 7 ++ producer 1 10 ++
    consumer 8

end Parallel
