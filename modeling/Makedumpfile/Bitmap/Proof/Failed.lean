import Makedumpfile.Bitmap.Proof.Windows

/-!
# Runs that cannot read

A run that cannot read a `struct page`, a free list or a page fails. So a run either fails or is the run
on the same image with everything readable (`secondBitmap_readable`), and what is proved of readable
images holds of every bitmap that is created.
-/

namespace Bitmap

variable {m : Image} {level fuel : Nat} {c : PfnCycle}

/-- The image with everything readable. -/
def Image.readable (m : Image) : Image :=
  { m with
    readOk := fun _ _ => true
    freeBlocks := some (m.freeBlocks.getD [])
    zeroPage := fun pfn => some ((m.zeroPage pfn).getD false) }

theorem imageOk_readable (m : Image) : ImageOk m.readable :=
  ⟨fun _ _ => rfl, rfl, fun _ => rfl⟩

theorem MemMapsOk.readable (h : MemMapsOk m) : MemMapsOk m.readable :=
  ⟨h.apart, h.order, h.limit⟩

/-- The run fails or is the other one. -/
def FailsOr {α : Type} (x y : Except Stop α) : Prop := x = .error .failed ∨ x = y

theorem FailsOr.refl {α : Type} (x : Except Stop α) : FailsOr x x := .inr rfl

theorem FailsOr.bind {α β : Type} {x y : Except Stop α} {f g : α → Except Stop β}
    (h : FailsOr x y) (hfg : ∀ a, FailsOr (f a) (g a)) : FailsOr (x >>= f) (y >>= g) := by
  rcases h with rfl | rfl
  · exact .inl rfl
  · cases x with
    | error e => exact .inr rfl
    | ok a => exact hfg a

theorem FailsOr.not_running {α : Type} {x : Except Stop α} {a : α} (h : FailsOr x (.ok a)) :
    x ≠ .error .running := by
  rcases h with rfl | rfl
  · nofun
  · nofun

theorem FailsOr.ok_eq {α : Type} {x : Except Stop α} {a b : α} (h : FailsOr x (.ok a))
    (hx : x = .ok b) : a = b := by
  subst hx
  rcases h with h | h
  · cases h
  · cases h
    rfl

/-- Only a branch of the run can fail. -/
theorem FailsOr.iteBind {α β : Type} {p : Prop} [Decidable p] {x y z : Except Stop α}
    {f g : α → Except Stop β} (h : FailsOr x y) (hfg : ∀ a, FailsOr (f a) (g a)) :
    FailsOr (if p then x >>= f else z >>= f) (if p then y >>= g else z >>= g) := by
  split
  · exact h.bind hfg
  · exact (FailsOr.refl z).bind hfg

/-- What failed with `none`. -/
theorem failsOr_orFail {α : Type} {x y : Option α} (h : x = none ∨ x = y) :
    FailsOr (orFail x) (orFail y) := by
  rcases h with rfl | rfl
  · exact .inl rfl
  · exact .refl _

theorem fetch_readable_image (pfnEnd pfn : Nat) (pc : PageCache) :
    fetch m pfnEnd pfn pc = none ∨ fetch m pfnEnd pfn pc = fetch m.readable pfnEnd pfn pc := by
  unfold fetch
  split
  · dsimp only
    generalize (if roundup (pfn + 1) pgmmCached < pfnEnd then pgmmCached - pfn % pgmmCached
      else pfnEnd - pfn) = n
    cases h : m.readOk pfn n with
    | true => exact .inr rfl
    | false => exact .inl rfl
  · exact .inr rfl

theorem scanPage_readable (pfnEnd : Nat) (l : PageLoop) :
    scanPage m level c pfnEnd l = none ∨
      scanPage m level c pfnEnd l = scanPage m.readable level c pfnEnd l := by
  have hseg : isInSegs m.readable l.pfn = isInSegs m l.pfn := rfl
  unfold scanPage
  rw [hseg]
  split
  · exact .inr rfl
  · split
    · exact .inr rfl
    · rcases fetch_readable_image (m := m) pfnEnd l.pfn l.cache with h | h
      · exact .inl (by rw [h])
      · rw [← h]
        exact .inr rfl

theorem scanPages_readable (pfnEnd : Nat) :
    ∀ (fuel : Nat) (l : PageLoop),
      FailsOr (scanPages m level c pfnEnd fuel l) (scanPages m.readable level c pfnEnd fuel l)
  | 0, _ => .refl _
  | fuel + 1, l => by
    unfold scanPages
    split
    · have hpage : scanPage m level c pfnEnd l = none ∨
          scanPage m level c pfnEnd l = scanPage m.readable level c pfnEnd l :=
        scanPage_readable pfnEnd l
      rcases hpage with h | h
      · exact .inl (by rw [h])
      · rw [← h]
        cases scanPage m level c pfnEnd l with
        | none => exact .inl rfl
        | some l => exact scanPages_readable pfnEnd fuel l
    · exact .refl _

theorem foldlM_failsOr {α β : Type} {f g : β → α → Except Stop β}
    (hfg : ∀ s a, FailsOr (f s a) (g s a)) : ∀ (l : List α) (s : β),
    FailsOr (l.foldlM f s) (l.foldlM g s)
  | [], _ => .refl _
  | a :: l, s => (hfg s a).bind fun s => foldlM_failsOr hfg l s

theorem excludeUnnecessaryPages_readable (junk : MemMap → Nat → List UInt8) (s : Scan) :
    FailsOr (excludeUnnecessaryPages m level c fuel junk s)
      (excludeUnnecessaryPages m.readable level c fuel junk s) := by
  unfold excludeUnnecessaryPages
  refine foldlM_failsOr (fun s mmd => ?_) m.memMaps s
  split
  · exact scanPages_readable mmd.pfnEnd fuel _
  · exact .refl _

theorem excludeFreePage_readable (buf : List UInt8) :
    excludeFreePage m c buf = none ∨ excludeFreePage m c buf = excludeFreePage m.readable c buf := by
  unfold excludeFreePage Image.readable
  cases m.freeBlocks with
  | none => exact .inl rfl
  | some l => exact .inr rfl

theorem excludeZeroPage_readable (buf : List UInt8) (pfn : Nat) :
    excludeZeroPage m c buf pfn = none ∨
      excludeZeroPage m c buf pfn = excludeZeroPage m.readable c buf pfn := by
  have hseg : isInSegs m.readable pfn = isInSegs m pfn := rfl
  have hzero : m.readable.zeroPage pfn = some ((m.zeroPage pfn).getD false) := rfl
  unfold excludeZeroPage
  rw [hseg, hzero]
  split
  · exact .inr rfl
  · split
    · exact .inr rfl
    · cases m.zeroPage pfn with
      | none => exact .inl rfl
      | some z => exact .inr rfl

theorem foldlM_excludeZeroPage_readable : ∀ (l : List Nat) (buf : List UInt8),
    l.foldlM (excludeZeroPage m c) buf = none ∨
      l.foldlM (excludeZeroPage m c) buf = l.foldlM (excludeZeroPage m.readable c) buf
  | [], _ => .inr rfl
  | pfn :: l, buf => by
    rw [List.foldlM_cons, List.foldlM_cons]
    rcases excludeZeroPage_readable (m := m) (c := c) buf pfn with h | h
    · exact .inl (by rw [h]; rfl)
    · rw [← h]
      cases excludeZeroPage m c buf pfn with
      | none => exact .inl rfl
      | some buf => exact foldlM_excludeZeroPage_readable l buf

theorem create2ndBitmap_readable (elf : Bool) (bufsizeCyclic : Nat)
    (junk : MemMap → Nat → List UInt8) (pend : Nat × Nat) :
    FailsOr (create2ndBitmap m elf level bufsizeCyclic fuel junk c pend)
      (create2ndBitmap m.readable elf level bufsizeCyclic fuel junk c pend) := by
  unfold create2ndBitmap
  refine FailsOr.iteBind (excludeUnnecessaryPages_readable junk _) fun s => ?_
  refine FailsOr.iteBind (failsOr_orFail (excludeFreePage_readable s.buf)) fun buf => ?_
  exact FailsOr.iteBind (failsOr_orFail (foldlM_excludeZeroPage_readable _ buf)) fun _ => .refl _

theorem createWindows_readable (elf : Bool) (bufsizeCyclic : Nat)
    (junk : PfnCycle → MemMap → Nat → List UInt8) : ∀ (cs : List PfnCycle) (pend : Nat × Nat),
    FailsOr (createWindows m elf level bufsizeCyclic fuel junk cs pend)
      (createWindows m.readable elf level bufsizeCyclic fuel junk cs pend)
  | [], _ => .refl _
  | c :: cs, pend =>
    (create2ndBitmap_readable elf bufsizeCyclic (junk c) pend).bind fun _ =>
      (createWindows_readable elf bufsizeCyclic junk cs _).bind fun _ => .refl _

/-- **A run fails or is the run with everything readable.** -/
theorem secondBitmap_readable (elf : Bool) (bufsizeCyclic : Nat)
    (junk : PfnCycle → MemMap → Nat → List UInt8) :
    FailsOr (secondBitmap m elf level bufsizeCyclic fuel junk)
      (secondBitmap m.readable elf level bufsizeCyclic fuel junk) :=
  createWindows_readable elf bufsizeCyclic junk (m.info bufsizeCyclic).cycles (0, 0)

end Bitmap
