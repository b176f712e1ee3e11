import Makedumpfile.Readmem.Cache
import Mathlib.Data.List.Nodup
import Mathlib.Data.Fintype.Card
import Mathlib.Data.UInt

/-!
# The page cache is right

Whatever readmem does, the eight entries stand for a pool and two well-formed lists (`Represents`). The
operations are moves between these through the hand of an operation (`Rep.takeUsed`, `Rep.putPending`
and so on), so that each keeps the representation and has its effect (`goes`).
-/

namespace PageCache

open Lib

variable {cfg : Config} {entries : Entries} {cache cache' : Cache} {i j : Slot} {p : Option Slot}

/-! ## Entries -/

/-- What is in an entry besides its links. -/
def CacheEntry.data (e : CacheEntry) : UInt64 × Nat × UInt64 × Option Discard :=
  (e.paddr, e.bufptr, e.buflen, e.discard)

@[simp] theorem setNext_next : (setNext entries i p j).next =
    Function.update (fun j => (entries j).next) i p j := by
  unfold setNext
  by_cases h : j = i
  · subst h
    simp
  · simp [h]

@[simp] theorem setNext_prev : (setNext entries i p j).prev = (entries j).prev := by
  unfold setNext
  by_cases h : j = i
  · subst h
    simp
  · simp [h]

@[simp] theorem setPrev_prev : (setPrev entries i p j).prev =
    Function.update (fun j => (entries j).prev) i p j := by
  unfold setPrev
  by_cases h : j = i
  · subst h
    simp
  · simp [h]

@[simp] theorem setPrev_next : (setPrev entries i p j).next = (entries j).next := by
  unfold setPrev
  by_cases h : j = i
  · subst h
    simp
  · simp [h]

@[simp] theorem setNext_data : (setNext entries i p j).data = (entries j).data := by
  unfold setNext
  by_cases h : j = i
  · subst h
    simp [CacheEntry.data]
  · simp [h]

@[simp] theorem setPrev_data : (setPrev entries i p j).data = (entries j).data := by
  unfold setPrev
  by_cases h : j = i
  · subst h
    simp [CacheEntry.data]
  · simp [h]

/-! ## The lists -/

def Cache.list (cache : Cache) (entries : Entries) : DList Slot where
  next i := (entries i).next
  prev i := (entries i).prev
  head := cache.head
  tail := cache.tail

theorem addEntry_list (entries : Entries) (cache : Cache) (i : Slot) :
    (addEntry entries cache i).2.list (addEntry entries cache i).1 = (cache.list entries).push i := by
  unfold addEntry DList.push Cache.list
  cases cache.head <;> cases cache.tail <;> simp

theorem removeEntry_list (entries : Entries) (cache : Cache) (i : Slot) :
    (removeEntry entries cache i).2.list (removeEntry entries cache i).1 =
      (cache.list entries).unlink i := by
  -- the link that is read after a write has the value that was written
  have hself (b : Slot) : Function.update (fun j => (entries j).prev) b (entries i).prev i =
      (entries i).prev := by
    by_cases h : i = b
    · rw [h, Function.update_self]
    · rw [Function.update_of_ne h]
  unfold removeEntry DList.unlink Cache.list
  cases hp : (entries i).prev with
  | none =>
    rw [hp] at hself
    cases hn : (entries i).next <;> simp [hn, hp, hself]
  | some a =>
    rw [hp] at hself
    cases hn : (entries i).next <;> simp [hn, hp, hself]

theorem addEntry_data : ((addEntry entries cache i).1 j).data = (entries j).data := by
  unfold addEntry
  cases cache.head <;> simp

theorem removeEntry_data : ((removeEntry entries cache i).1 j).data = (entries j).data := by
  unfold removeEntry
  cases (entries i).next <;> dsimp only <;> split <;> simp

section Lists

variable {l l' l₁ l₂ : List Slot}

theorem holds_addEntry (h : (cache.list entries).Holds l) (hi : i ∉ l) :
    ((addEntry entries cache i).2.list (addEntry entries cache i).1).Holds (i :: l) :=
  addEntry_list entries cache i ▸ h.push hi

theorem holds_removeEntry (h : (cache.list entries).Holds (l₁ ++ i :: l₂)) :
    ((removeEntry entries cache i).2.list (removeEntry entries cache i).1).Holds (l₁ ++ l₂) :=
  removeEntry_list entries cache i ▸ h.unlink

/-- The other list shares the entries, but none of its own is touched. -/
theorem holds_addEntry_other (h : (cache.list entries).Holds l)
    (h' : (cache'.list entries).Holds l') (hi : i ∉ l') (hdis : ∀ j ∈ l', j ∉ l) :
    (cache'.list (addEntry entries cache i).1).Holds l' := by
  have hframe (j : Slot) (hj : j ∈ l') :=
    addEntry_list entries cache i ▸
      DList.push_frame (a := i) h (fun he => hi (he ▸ hj)) (hdis j hj)
  exact h'.congr rfl rfl (fun j hj => (hframe j hj).1) fun j hj => (hframe j hj).2

theorem holds_removeEntry_other (h : (cache.list entries).Holds (l₁ ++ i :: l₂))
    (h' : (cache'.list entries).Holds l') (hdis : ∀ j ∈ l', j ∉ l₁ ++ i :: l₂) :
    (cache'.list (removeEntry entries cache i).1).Holds l' := by
  have hframe (j : Slot) (hj : j ∈ l') :=
    removeEntry_list entries cache i ▸
      h.unlink_frame (fun hm => hdis j hj (List.mem_append_left _ hm))
        (fun hm => hdis j hj (List.mem_append_right _ (List.mem_cons_of_mem _ hm)))
  exact h'.congr rfl rfl (fun j hj => (hframe j hj).1) fun j hj => (hframe j hj).2

end Lists

/-! ## The three containers -/

/-- The entries are in the pool, in one of the two lists or, within an operation, in its hand. -/
structure Rep (g : Globals) (hand pool used pending : List Slot) : Prop where
  size : g.pool.length = 8
  avail : g.avail ≤ 8
  take : g.pool.take g.avail = pool
  usedList : (g.used.list g.entries).Holds used
  pendingList : (g.pending.list g.entries).Holds pending
  partition : ∀ i, hand.count i + pool.count i + used.count i + pending.count i = 1

variable {g : Globals} {hand pool used pending l₁ l₂ : List Slot} {e : Slot}

theorem Rep.not_used_of_pending (h : Rep g hand pool used pending) (hi : i ∈ pending) :
    i ∉ used := by
  intro hu
  have := h.partition i
  have := List.count_pos_iff.mpr hi
  have := List.count_pos_iff.mpr hu
  omega

theorem Rep.not_mem_of_hand (h : Rep g (e :: hand) pool used pending) :
    e ∉ pool ∧ e ∉ used ∧ e ∉ pending := by
  have hc := h.partition e
  rw [List.count_cons_self] at hc
  refine ⟨fun hm => ?_, fun hm => ?_, fun hm => ?_⟩
  all_goals
    have := List.count_pos_iff.mpr hm
    omega

/-- Other data in an entry. -/
theorem Rep.update {x : CacheEntry} (h : Rep g hand pool used pending)
    (hnext : x.next = (g.entries e).next) (hprev : x.prev = (g.entries e).prev) :
    Rep { g with entries := Function.update g.entries e x } hand pool used pending := by
  have hn (i : Slot) : (Function.update g.entries e x i).next = (g.entries i).next := by
    by_cases hi : i = e
    · rw [hi, Function.update_self, hnext]
    · rw [Function.update_of_ne hi]
  have hp (i : Slot) : (Function.update g.entries e x i).prev = (g.entries i).prev := by
    by_cases hi : i = e
    · rw [hi, Function.update_self, hprev]
    · rw [Function.update_of_ne hi]
  exact { h with
    usedList := h.usedList.congr rfl rfl (fun i _ => hn i) fun i _ => hp i
    pendingList := h.pendingList.congr rfl rfl (fun i _ => hn i) fun i _ => hp i }

theorem Rep.takeUsed (h : Rep g hand pool (l₁ ++ e :: l₂) pending) :
    Rep { g with
      entries := (removeEntry g.entries g.used e).1
      used := (removeEntry g.entries g.used e).2 } (e :: hand) pool (l₁ ++ l₂) pending where
  size := h.size
  avail := h.avail
  take := h.take
  usedList := holds_removeEntry h.usedList
  pendingList := holds_removeEntry_other h.usedList h.pendingList fun _ hj => h.not_used_of_pending hj
  partition i := by
    have := h.partition i
    simp only [List.count_append, List.count_cons] at this ⊢
    omega

theorem Rep.takePending (h : Rep g hand pool used (l₁ ++ e :: l₂)) :
    Rep { g with
      entries := (removeEntry g.entries g.pending e).1
      pending := (removeEntry g.entries g.pending e).2 } (e :: hand) pool used (l₁ ++ l₂) where
  size := h.size
  avail := h.avail
  take := h.take
  usedList := holds_removeEntry_other h.pendingList h.usedList fun _ hj hp => h.not_used_of_pending hp hj
  pendingList := holds_removeEntry h.pendingList
  partition i := by
    have := h.partition i
    simp only [List.count_append, List.count_cons] at this ⊢
    omega

theorem Rep.putUsed (h : Rep g (e :: hand) pool used pending) :
    Rep { g with
      entries := (addEntry g.entries g.used e).1
      used := (addEntry g.entries g.used e).2 } hand pool (e :: used) pending where
  size := h.size
  avail := h.avail
  take := h.take
  usedList := holds_addEntry h.usedList h.not_mem_of_hand.2.1
  pendingList := holds_addEntry_other h.usedList h.pendingList h.not_mem_of_hand.2.2
    fun _ hj => h.not_used_of_pending hj
  partition i := by
    have := h.partition i
    simp only [List.count_cons] at this ⊢
    omega

theorem Rep.putPending (h : Rep g (e :: hand) pool used pending) :
    Rep { g with
      entries := (addEntry g.entries g.pending e).1
      pending := (addEntry g.entries g.pending e).2 } hand pool used (e :: pending) where
  size := h.size
  avail := h.avail
  take := h.take
  usedList := holds_addEntry_other h.pendingList h.usedList h.not_mem_of_hand.2.1
    fun _ hj hp => h.not_used_of_pending hp hj
  pendingList := holds_addEntry h.pendingList h.not_mem_of_hand.2.2
  partition i := by
    have := h.partition i
    simp only [List.count_cons] at this ⊢
    omega

/-- The last entry of the pool. -/
theorem Rep.takePool (h : Rep g hand pool used pending) (hne : g.avail ≠ 0) :
    ∃ e pool', g.pool[g.avail - 1]? = some e ∧ pool = pool' ++ [e] ∧
      Rep { g with avail := g.avail - 1 } (e :: hand) pool' used pending := by
  have hlt : g.avail - 1 < g.pool.length := by
    have := h.avail
    rw [h.size]
    omega
  have hpool : pool = g.pool.take (g.avail - 1) ++ [g.pool[g.avail - 1]] := by
    rw [← h.take, List.take_append_getElem]
    congr 1
    omega
  refine ⟨_, _, List.getElem?_eq_getElem hlt, hpool, h.size, ?_, rfl, h.usedList, h.pendingList, ?_⟩
  · exact Nat.le_trans (Nat.sub_le _ _) h.avail
  · intro i
    have := h.partition i
    rw [hpool] at this
    simp only [List.count_append, List.count_cons, List.count_nil] at this ⊢
    omega

/-- There is room in the pool for an entry that is in hand. -/
theorem Rep.putPool (h : Rep g (e :: hand) pool used pending) :
    g.avail < g.pool.length ∧
      Rep { g with pool := g.pool.set g.avail e, avail := g.avail + 1 } hand (pool ++ [e]) used
        pending := by
  have hnd : (e :: pool).Nodup := by
    refine List.nodup_cons.mpr ⟨h.not_mem_of_hand.1, List.nodup_iff_count_le_one.mpr fun i => ?_⟩
    have := h.partition i
    omega
  have hlt : g.avail < g.pool.length := by
    have hcard := hnd.length_le_card
    have := h.avail
    have := h.size
    rw [List.length_cons, ← h.take, List.length_take, Fintype.card_fin] at hcard
    omega
  refine ⟨hlt, ⟨?_, ?_, ?_, h.usedList, h.pendingList, ?_⟩⟩
  · simpa using h.size
  · have := h.size
    show g.avail + 1 ≤ 8
    omega
  · rw [← h.take]
    simp only
    rw [List.take_add_one, List.take_set_of_le (le_refl _), List.getElem?_set_self hlt]
    rfl
  · intro i
    have := h.partition i
    simp only [List.count_append, List.count_cons, List.count_nil] at this ⊢
    omega

/-! ## The range of an entry -/

/-- The addresses of the bytes in the entry's buffer; they may go around the end of the address space. -/
def CacheEntry.range (e : CacheEntry) : Set UInt64 := {a | ∃ off < e.buflen, e.paddr + off = a}

/-- `[paddr, paddr + length)` is in the range; when it is empty, its start is. -/
def CacheEntry.Contains (e : CacheEntry) (paddr length : UInt64) : Prop :=
  paddr ∈ e.range ∧ ∀ i < length, paddr + i ∈ e.range

theorem off_eq {a b off : UInt64} (h : a + off = b) : b - a = off := by
  rw [← h, add_sub_cancel_left]

theorem CacheEntry.hit_iff {e : CacheEntry} {paddr length : UInt64} :
    e.hit paddr length = true ↔ e.Contains paddr length := by
  have hoff : e.paddr + (paddr - e.paddr) = paddr := add_sub_cancel e.paddr paddr
  simp only [hit, decide_eq_true_eq]
  constructor
  · rintro ⟨hlt, hle⟩
    refine ⟨⟨_, hlt, hoff⟩, fun i hi => ⟨paddr - e.paddr + i, ?_, ?_⟩⟩
    · rw [UInt64.lt_iff_toNat_lt] at *
      rw [UInt64.le_iff_toNat_le] at *
      have := UInt64.toNat_sub_of_le _ _ (UInt64.le_of_lt hlt)
      have := e.buflen.toNat_lt
      rw [UInt64.toNat_add, Nat.mod_eq_of_lt] <;> omega
    · rw [← add_assoc, hoff]
  · rintro ⟨⟨off, hlt, he⟩, hall⟩
    rw [off_eq he]
    refine ⟨hlt, UInt64.not_lt.mp fun hgt => ?_⟩
    obtain ⟨off', hlt', he'⟩ := hall _ hgt
    rw [← he, add_assoc, add_sub_cancel] at he'
    exact UInt64.lt_irrefl _ (add_left_cancel he' ▸ hlt')

/-- The walk finds the first entry of the list. -/
theorem searchFrom_eq {l : List Slot} {fuel : Nat} (h : (cache.list entries).Linked p l none)
    (hf : l.length ≤ fuel) (paddr length : UInt64) :
    searchFrom entries paddr length fuel l.head? =
      some (l.find? fun i => (entries i).hit paddr length) := by
  induction l generalizing p fuel with
  | nil => cases fuel <;> rfl
  | cons i l ih =>
    obtain ⟨-, hnext, hl⟩ := h
    rw [Option.or_none] at hnext
    cases fuel with
    | zero => simp at hf
    | succ fuel =>
      rw [List.head?_cons, searchFrom, List.find?_cons]
      cases hhit : (entries i).hit paddr length with
      | true => rfl
      | false =>
        have hrest := ih hl (Nat.le_of_succ_le_succ hf)
        rw [← hnext] at hrest
        exact hrest

/-! ## The order of use -/

/-- The list is in the order of the last uses. -/
structure Recent (uses used : List Slot) : Prop where
  mem : ∀ i ∈ used, i ∈ uses
  order : used.Pairwise fun i j => uses.idxOf i < uses.idxOf j

theorem Recent.sublist {uses l l' : List Slot} (h : Recent uses l) (hs : l'.Sublist l) :
    Recent uses l' :=
  ⟨fun i hi => h.mem i (hs.subset hi), h.order.sublist hs⟩

theorem Recent.use {uses l : List Slot} (h : Recent uses l) (he : e ∉ l) :
    Recent (e :: uses) (e :: l) := by
  have hidx {i : Slot} (hi : i ∈ l) : (e :: uses).idxOf i = uses.idxOf i + 1 :=
    List.idxOf_cons_ne uses fun hei => he (hei ▸ hi)
  refine ⟨fun i hi => ?_, List.pairwise_cons.mpr ⟨fun i hi => ?_, ?_⟩⟩
  · cases List.mem_cons.mp hi with
    | inl hi => exact hi ▸ List.mem_cons_self
    | inr hi => exact List.mem_cons_of_mem _ (h.mem i hi)
  · rw [List.idxOf_cons_self, hidx hi]
    exact Nat.succ_pos _
  · refine h.order.imp_of_mem fun hi hj hlt => ?_
    rw [hidx hi, hidx hj]
    exact Nat.succ_lt_succ hlt

/-! ## Runs -/

/-- The state of a run stands for the three containers: what the callers have is pending, and the used
list is in the order of use. -/
structure Represents (r : Run) (pool used pending : List Slot) : Prop where
  rep : Rep r.g [] pool used pending
  cached : ∀ i, i ∈ r.cached ↔ i ∈ pending
  recent : Recent r.uses used

/-- The call of the callback, if there is one. -/
def discardCall (e : Slot) (entry : CacheEntry) : List (Slot × Nat × UInt64) :=
  match entry.discard with
  | some .unmapCache => [(e, entry.bufptr, entry.buflen)]
  | none => []

/-- The data of the other entries are kept. -/
def Keeps (e : Option Slot) (r r' : Run) : Prop :=
  ∀ i, e ≠ some i → (r'.g.entries i).data = (r.g.entries i).data

/-- What an operation answers, and does besides moving entries. -/
inductive Effect (cfg : Config) (r : Run) (pool used : List Slot) : Op → Reply → Run → Prop
  | hit {paddr length off : UInt64} {l₁ l₂ : List Slot} {e : Slot} {r' : Run} :
    used = l₁ ++ e :: l₂ → (∀ i ∈ l₁, ¬ (r.g.entries i).Contains paddr length) →
    (r.g.entries e).Contains paddr length → (r.g.entries e).paddr + off = paddr →
    off.toNat + length.toNat ≤ (r.g.entries e).buflen.toNat →
    r'.uses = e :: r.uses → r'.g.discarded = r.g.discarded → Keeps none r r' →
    Effect cfg r pool used (.search paddr length)
      (.ptr (some ((r.g.entries e).bufptr + off.toNat))) r'
  | miss {paddr length : UInt64} :
    (∀ i ∈ used, ¬ (r.g.entries i).Contains paddr length) →
    Effect cfg r pool used (.search paddr length) (.ptr none) r
  | fromPool {paddr : UInt64} {pool' : List Slot} {e : Slot} {r' : Run} :
    pool = pool' ++ [e] → r'.g.discarded = r.g.discarded → r'.uses = r.uses → Keeps (some e) r r' →
    (r'.g.entries e).data =
      (paddr, cfg.cachebuf + e * cfg.pageSize, UInt64.ofNat cfg.pageSize, none) →
    Effect cfg r pool used (.alloc paddr) (.entry (some e)) r'
  | evict {paddr : UInt64} {used' : List Slot} {e : Slot} {r' : Run} :
    pool = [] → used = used' ++ [e] → (∀ i ∈ used', r.uses.idxOf i < r.uses.idxOf e) →
    r'.g.discarded = r.g.discarded ++ discardCall e (r.g.entries e) → r'.uses = r.uses →
    Keeps (some e) r r' →
    (r'.g.entries e).data =
      (paddr, cfg.cachebuf + e * cfg.pageSize, UInt64.ofNat cfg.pageSize, none) →
    Effect cfg r pool used (.alloc paddr) (.entry (some e)) r'
  | full {paddr : UInt64} :
    pool = [] → used = [] → Effect cfg r pool used (.alloc paddr) (.entry none) r
  | map {e : Slot} {paddr buflen : UInt64} {bufptr : Nat} {r' : Run} :
    r'.uses = r.uses → r'.g.discarded = r.g.discarded → Keeps (some e) r r' →
    (r'.g.entries e).data = (paddr, bufptr, buflen, some .unmapCache) →
    Effect cfg r pool used (.map e paddr bufptr buflen) .unit r'
  | add {e : Slot} {r' : Run} :
    r'.uses = e :: r.uses → r'.g.discarded = r.g.discarded → Keeps none r r' →
    Effect cfg r pool used (.add e) .unit r'
  | free {e : Slot} {r' : Run} :
    r'.uses = r.uses → r'.g.discarded = r.g.discarded → Keeps none r r' →
    Effect cfg r pool used (.free e) .unit r'

/-- An operation goes through, with its effect, to a state that stands for three containers again. -/
def Goes (cfg : Config) (r : Run) (pool used : List Slot) (op : Op) : Prop :=
  ∃ reply r', step cfg op r = some (reply, r') ∧ Effect cfg r pool used op reply r' ∧
    ∃ pool' used' pending', Represents r' pool' used' pending'

variable {r : Run}

theorem Rep.used_length (h : Rep g hand pool used pending) : used.length ≤ 8 := by
  have hnd : used.Nodup := h.usedList.nodup
  simpa using hnd.length_le_card

theorem search_goes (h : Represents r pool used pending) (paddr length : UInt64) :
    Goes cfg r pool used (.search paddr length) := by
  have hwalk := searchFrom_eq h.rep.usedList.linked h.rep.used_length paddr length
  have hhead : r.g.used.head = used.head? := h.rep.usedList.head
  rw [← hhead] at hwalk
  cases hf : used.find? fun i => (r.g.entries i).hit paddr length with
  | none =>
    rw [hf] at hwalk
    refine ⟨.ptr none, r, ?_, .miss fun i hi hc => ?_, pool, used, pending, h⟩
    · simp only [step, cacheSearch, hwalk]
    · exact List.find?_eq_none.mp hf i hi (CacheEntry.hit_iff.mpr hc)
  | some e =>
    rw [hf] at hwalk
    obtain ⟨hhit, l₁, l₂, rfl, hl₁⟩ := List.find?_eq_some_iff_append.mp hf
    have hcont := CacheEntry.hit_iff.mp hhit
    obtain ⟨hlt, hle⟩ := of_decide_eq_true hhit
    have hoff : (r.g.entries e).paddr + (paddr - (r.g.entries e).paddr) = paddr :=
      add_sub_cancel (r.g.entries e).paddr paddr
    have hfit : (paddr - (r.g.entries e).paddr).toNat + length.toNat ≤
        (r.g.entries e).buflen.toNat := by
      have hsub := UInt64.toNat_sub_of_le _ _ (UInt64.le_of_lt hlt)
      rw [UInt64.lt_iff_toNat_lt] at hlt
      rw [UInt64.le_iff_toNat_le] at hle
      omega
    have hfirst (i : Slot) (hi : i ∈ l₁) : ¬ (r.g.entries i).Contains paddr length := fun hc => by
      have hno := hl₁ i hi
      rw [CacheEntry.hit_iff.mpr hc] at hno
      cases hno
    have hne : e ∉ l₁ ++ l₂ := 
      (List.nodup_cons.mp (List.nodup_middle.mp h.rep.usedList.nodup)).1
    have hrec : Recent (e :: r.uses) (e :: (l₁ ++ l₂)) :=
      (h.recent.sublist (List.Sublist.append_left (List.sublist_cons_self e l₂) l₁)).use hne
    by_cases hfront : r.g.used.head = some e
    · -- already at the head, so nothing is before it
      have hnil : l₁ = [] := by
        cases l₁ with
        | nil => rfl
        | cons i l₁ =>
          rw [hhead, List.cons_append, List.head?_cons, Option.some.injEq] at hfront
          exact absurd (hfront ▸ List.mem_cons_self) hne
      subst hnil
      refine ⟨_, { r with uses := e :: r.uses }, ?_,
        .hit rfl hfirst hcont hoff hfit rfl rfl fun i _ => rfl, pool, e :: l₂, pending,
        h.rep, h.cached, hrec⟩
      simp only [step, cacheSearch, hwalk]
      rw [if_pos hfront]
      simp only [hfront, Option.toList_some, List.singleton_append]
    · refine ⟨_, { r with
        g := { r.g with
          entries := (addEntry (removeEntry r.g.entries r.g.used e).1
            (removeEntry r.g.entries r.g.used e).2 e).1
          used := (addEntry (removeEntry r.g.entries r.g.used e).1
            (removeEntry r.g.entries r.g.used e).2 e).2 }
        uses := e :: r.uses }, ?_,
        .hit rfl hfirst hcont hoff hfit rfl rfl fun i _ => ?_, pool, e :: (l₁ ++ l₂), pending,
        h.rep.takeUsed.putUsed, h.cached, hrec⟩
      · simp only [step, cacheSearch, hwalk, hfront, if_false]
        rfl
      · exact addEntry_data.trans removeEntry_data

theorem prepareEntry_rep (cfg : Config) (h : Rep g (e :: hand) pool used pending) (paddr : UInt64) :
    Rep (prepareEntry cfg paddr e g) hand pool used (e :: pending) ∧
      ((prepareEntry cfg paddr e g).entries e).data =
        (paddr, cfg.cachebuf + e * cfg.pageSize, UInt64.ofNat cfg.pageSize, none) ∧
      ∀ i, i ≠ e → ((prepareEntry cfg paddr e g).entries i).data = (g.entries i).data := by
  have hown := h.update (e := e) (x := { g.entries e with
    paddr
    bufptr := cfg.cachebuf + e * cfg.pageSize
    buflen := UInt64.ofNat cfg.pageSize
    discard := none }) rfl rfl
  refine ⟨hown.putPending, ?_, fun i hi => ?_⟩
  · rw [prepareEntry, addEntry_data, Function.update_self]
    rfl
  · rw [prepareEntry, addEntry_data, Function.update_of_ne hi]

theorem callDiscard_eq (e : Slot) (g : Globals) :
    callDiscard e g = { g with discarded := g.discarded ++ discardCall e (g.entries e) } := by
  simp only [callDiscard, discardCall]
  cases hd : (g.entries e).discard with
  | none => simp
  | some c => cases c with
    | unmapCache => simp

theorem Rep.callDiscard (h : Rep g hand pool used pending) (e : Slot) :
    Rep (callDiscard e g) hand pool used pending := by
  rw [callDiscard_eq]
  exact { h with }

theorem discardCall_congr {a b : CacheEntry} (h : a.data = b.data) :
    discardCall e a = discardCall e b := by
  simp only [CacheEntry.data, Prod.mk.injEq] at h
  rw [discardCall, discardCall, h.2.1, h.2.2.1, h.2.2.2]

theorem alloc_goes (h : Represents r pool used pending) (paddr : UInt64) :
    Goes cfg r pool used (.alloc paddr) := by
  have hcached {e : Slot} (i : Slot) : i ∈ e :: r.cached ↔ i ∈ e :: pending := by
    rw [List.mem_cons, List.mem_cons, h.cached]
  by_cases ha : r.g.avail = 0
  · have hpool : pool = [] := by
      rw [← h.rep.take, ha, List.take_zero]
    have htail : r.g.used.tail = used.getLast? := h.rep.usedList.tail
    rcases List.eq_nil_or_concat used with hu | ⟨used', e, hu⟩
    · rw [hu, List.getLast?_nil] at htail
      refine ⟨_, r, ?_, .full hpool hu, pool, used, pending, h⟩
      simp only [step, cacheAlloc, ha, ne_eq, not_true_eq_false, if_false, htail, Option.toList_none,
        List.nil_append]
    · subst hu
      rw [List.concat_eq_append, List.getLast?_concat] at htail
      rw [List.concat_eq_append] at h ⊢
      have htaken := h.rep.takeUsed
      rw [List.append_nil] at htaken
      obtain ⟨hprep, hdata, hkeep⟩ := prepareEntry_rep cfg (htaken.callDiscard e) paddr
      refine ⟨_, ⟨_, e :: r.cached, r.uses⟩, ?_,
        .evict hpool rfl (fun i hi => ?_) ?_ rfl (fun i hi => ?_) hdata,
        pool, used', e :: pending, hprep, hcached,
        h.recent.sublist (List.sublist_append_left _ _)⟩
      · simp only [step, cacheAlloc, ha, ne_eq, not_true_eq_false, if_false, htail]
        rfl
      · exact (List.pairwise_append.mp h.recent.order).2.2 i hi e List.mem_cons_self
      · refine (congrArg Globals.discarded (callDiscard_eq e _)).trans ?_
        exact congrArg (r.g.discarded ++ ·) (discardCall_congr removeEntry_data)
      · refine (hkeep i fun he => hi (he ▸ rfl)).trans ?_
        rw [callDiscard_eq]
        exact removeEntry_data
  · obtain ⟨e, pool', hget, rfl, hrep⟩ := h.rep.takePool ha
    obtain ⟨hprep, hdata, hkeep⟩ := prepareEntry_rep cfg hrep paddr
    refine ⟨_, ⟨prepareEntry cfg paddr e { r.g with avail := r.g.avail - 1 }, e :: r.cached,
      r.uses⟩, ?_, .fromPool rfl rfl rfl (fun i hi => hkeep i fun he => hi (he ▸ rfl)) hdata,
      pool', used, e :: pending, hprep, hcached, h.recent⟩
    simp only [step, cacheAlloc, ha, ne_eq, not_false_eq_true, if_true, hget]
    rfl

theorem map_goes (h : Represents r pool used pending) (e : Slot) (paddr : UInt64) (bufptr : Nat)
    (buflen : UInt64) : Goes cfg r pool used (.map e paddr bufptr buflen) := by
  have hne {i : Slot} (hi : i ≠ e) :
      (mapEntry e paddr bufptr buflen r.g).entries i = r.g.entries i :=
    Function.update_of_ne hi _ _
  have heq : (mapEntry e paddr bufptr buflen r.g).entries e =
      { r.g.entries e with paddr, bufptr, buflen, discard := some .unmapCache } :=
    Function.update_self ..
  refine ⟨_, _, rfl, .map rfl rfl (fun i hi => ?_) (congrArg CacheEntry.data heq), pool, used,
    pending, h.rep.update rfl rfl, h.cached, h.recent⟩
  exact congrArg CacheEntry.data (hne fun he => hi (he ▸ rfl))

/-- The callers no longer have what is no longer pending. -/
theorem Represents.cached_filter (h : Represents r pool used (l₁ ++ e :: l₂)) (i : Slot) :
    i ∈ r.cached.filter (· ≠ e) ↔ i ∈ l₁ ++ l₂ := by
  have hnot := (List.nodup_cons.mp (List.nodup_middle.mp h.rep.pendingList.nodup)).1
  rw [List.mem_filter, h.cached, decide_eq_true_eq, List.mem_append, List.mem_cons]
  constructor
  · rintro ⟨hi | hi | hi, hne⟩
    · exact List.mem_append_left _ hi
    · exact absurd hi hne
    · exact List.mem_append_right _ hi
  · intro hi
    refine ⟨?_, fun he => hnot (he ▸ hi)⟩
    cases List.mem_append.mp hi with
    | inl hi => exact .inl hi
    | inr hi => exact .inr (.inr hi)

theorem add_goes (h : Represents r pool used pending) (he : e ∈ r.cached) :
    Goes cfg r pool used (.add e) := by
  obtain ⟨l₁, l₂, rfl⟩ := List.append_of_mem ((h.cached e).mp he)
  have htaken := h.rep.takePending
  exact ⟨_, _, rfl, .add rfl rfl fun i _ => addEntry_data.trans removeEntry_data,
    pool, e :: used, l₁ ++ l₂, htaken.putUsed, h.cached_filter,
    h.recent.use htaken.not_mem_of_hand.2.1⟩

theorem free_goes (h : Represents r pool used pending) (he : e ∈ r.cached) :
    Goes cfg r pool used (.free e) := by
  obtain ⟨l₁, l₂, rfl⟩ := List.append_of_mem ((h.cached e).mp he)
  obtain ⟨hroom, hput⟩ := h.rep.takePending.putPool
  have hfree : cacheFree e r.g = some _ := if_pos hroom
  refine ⟨.unit, ⟨_, r.cached.filter (· ≠ e), r.uses⟩, ?_, ?_, pool ++ [e], used, l₁ ++ l₂, hput,
    h.cached_filter, h.recent⟩
  · simp only [step, hfree]
  · exact .free rfl rfl fun i _ => removeEntry_data

/-- **One operation** that readmem may issue. -/
theorem goes (h : Represents r pool used pending) {op : Op} (ha : op.Allowed r) :
    Goes cfg r pool used op := by
  cases op with
  | search paddr length => exact search_goes h paddr length
  | alloc paddr => exact alloc_goes h paddr
  | map e paddr bufptr buflen => exact map_goes h e paddr bufptr buflen
  | add e => exact add_goes h ha
  | free e => exact free_goes h ha

theorem represents_init : Represents {} (List.finRange 8) [] [] where
  rep :=
    { size := rfl
      avail := Nat.le_refl _
      take := rfl
      usedList := ⟨rfl, rfl, trivial, List.nodup_nil⟩
      pendingList := ⟨rfl, rfl, trivial, List.nodup_nil⟩
      partition := by decide }
  cached _ := Iff.rfl
  recent := ⟨nofun, List.Pairwise.nil⟩

theorem reachable_represents (h : Reachable cfg r) :
    ∃ pool used pending, Represents r pool used pending := by
  induction h with
  | init => exact ⟨_, _, _, represents_init⟩
  | step _ ha hs ih =>
    obtain ⟨pool, used, pending, hrep⟩ := ih
    obtain ⟨reply, r', hs', -, hrep'⟩ := goes hrep ha
    rw [hs] at hs'
    cases hs'
    exact hrep'

/-- **The page cache in every run**: the eight entries are in the pool, the used list or the pending
list, the lists are well formed and the used one is in the order of use; and whatever readmem may ask
for next goes through and has its effect. -/
theorem pageCache_ok (h : Reachable cfg r) :
    ∃ pool used pending, Represents r pool used pending ∧
      ∀ op, op.Allowed r → ∃ reply r', step cfg op r = some (reply, r') ∧
        Effect cfg r pool used op reply r' := by
  obtain ⟨pool, used, pending, hrep⟩ := reachable_represents h
  refine ⟨pool, used, pending, hrep, fun op ha => ?_⟩
  obtain ⟨reply, r', hs, heff, -⟩ := goes hrep ha
  exact ⟨reply, r', hs, heff⟩

/-- A page was read into the first entry taken. -/
theorem pageCache_ok_first :
    ∃ pool used pending,
      Represents ⟨cacheAdd 7 (prepareEntry ⟨0, 4096⟩ 4096 7 { avail := 7 }), [], [7]⟩ pool used
        pending ∧
      ∀ op, op.Allowed ⟨cacheAdd 7 (prepareEntry ⟨0, 4096⟩ 4096 7 { avail := 7 }), [], [7]⟩ →
        ∃ reply r', step ⟨0, 4096⟩ op
            ⟨cacheAdd 7 (prepareEntry ⟨0, 4096⟩ 4096 7 { avail := 7 }), [], [7]⟩ =
              some (reply, r') ∧
          Effect ⟨0, 4096⟩
            ⟨cacheAdd 7 (prepareEntry ⟨0, 4096⟩ 4096 7 { avail := 7 }), [], [7]⟩ pool used op reply
            r' := by
  have halloc : Reachable ⟨0, 4096⟩ ⟨prepareEntry ⟨0, 4096⟩ 4096 7 { avail := 7 }, [7], []⟩ :=
    @Reachable.step ⟨0, 4096⟩ {} _ (.alloc 4096) (.entry (some 7)) .init trivial rfl
  have hin : (7 : Slot) ∈ [7] := List.mem_cons_self
  exact pageCache_ok (@Reachable.step ⟨0, 4096⟩ _ _ (.add 7) .unit halloc hin rfl)

end PageCache
