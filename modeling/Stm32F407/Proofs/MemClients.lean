import Stm32F407.Proofs.MemCalls

/-! Who may release what in the SRAM_IN bank. A call of `my_free` clears only the
caller's own blocks as long as no stale global points at a block handed out
again; the first call that breaks this condition clears somebody else's block. -/

namespace Stm32F407

open Lib

variable {m : Sram} {w : World} {o : Owner} {p size : U32}

/-- What holds of the bank, the holders and the log after any safe history. Static
data starts out zero, so a table still to be initialised is all zero. -/
structure WorldInv (m : Sram) (w : World) : Prop where
  rep : Represents m.toBank (ensureInit m.toBank w.bank) (w.held.map (Held.alloc m))
  zero : w.bank.memrdy = 0 → ∀ j < m.memtblsize, w.bank.memmap j = 0
  owns : ∀ c ∈ w.log, c.Owns m

theorem WorldInv.ptr_ne (h : WorldInv m w) {a : Held} (ha : a ∈ w.held) : a.ptr ≠ 0 := by
  have hlt := h.rep.off_lt (List.mem_map_of_mem ha)
  have hne := membase_add_ne hlt
  rwa [Held.alloc, BitVec.add_comm, BitVec.sub_add_cancel] at hne

theorem WorldInv.ready (h : WorldInv m w) {a : Held} (ha : a ∈ w.held) : w.bank.memrdy ≠ 0 :=
  ready_of_live m.tbl_lt h.rep (List.mem_map_of_mem ha)

/-- A call that clears only the caller's blocks may be added to the log. -/
theorem WorldInv.owns_snoc (h : WorldInv m w) {c : Call} (hc : c.Owns m) :
    ∀ c' ∈ w.log ++ [c], c'.Owns m := by
  intro c' hc'
  rcases List.mem_append.mp hc' with hold | hnew
  · exact h.owns c' hold
  · rwa [List.mem_singleton.mp hnew]

theorem Call.owns_of_keeps {c : Call} (h : ∀ j, c.before j ≠ 0 → c.after j ≠ 0) : c.Owns m :=
  fun j hj hj' => absurd hj' (h j hj)

/-- `my_malloc` keeps the invariant and clears nothing. -/
theorem WorldInv.malloc (h : WorldInv m w) (o : Owner) (size : U32) :
    WorldInv m (w.malloc m o size).2 := by
  have hres := myMemMalloc_result m.toBank w.bank size
  have hready := myMalloc_memrdy (m := m) w.bank size
  have hrep := hres.represents h.rep
  have hkeep : ∀ j, w.bank.memmap j ≠ 0 → (myMemMalloc m.toBank w.bank size).2.memmap j ≠ 0 := by
    intro j hj
    exact hres.keeps (by rwa [ensureInit_memmap h.zero])
  have hbank := myMalloc_bank (m := m) w.bank size
  have hheld : (w.malloc m o size).2.held.map (Held.alloc m) =
      liveAfter (w.held.map (Held.alloc m)) (myMemMalloc m.toBank w.bank size).1 size := by
    unfold World.malloc myMalloc liveAfter
    simp only
    split_ifs with hoff hne hne
    · rfl
    · exact absurd rfl hne
    · refine absurd hne (membase_add_ne ?_)
      rw [liveAfter, if_neg hoff] at hrep
      exact hrep.off_lt List.mem_cons_self
    · simp only [List.map_cons, Held.alloc]
      rw [BitVec.add_comm, BitVec.add_sub_cancel]
  refine ⟨?_, ?_, ?_⟩
  · change Represents _ (ensureInit _ (myMalloc m w.bank size).2) _
    rwa [ensureInit_of_ready _ hready, hbank, hheld]
  · intro hr
    change (myMalloc m w.bank size).2.memrdy = 0 at hr
    exact absurd hr hready
  · apply h.owns_snoc
    apply Call.owns_of_keeps
    intro j hj
    change (myMalloc m w.bank size).2.memmap j ≠ 0
    rw [hbank]
    exact hkeep j hj

/-- `o` may pass `p` to `my_free`: it is NULL, or held by `o`, or points at a free block. -/
def MayFree (m : Sram) (o : Owner) (w : World) (p : U32) : Prop :=
  p = 0 ∨ (∃ a ∈ w.held, a.owner = o ∧ a.ptr = p) ∨
    w.bank.memmap ((p - m.membase).toNat / m.memblksize) = 0

theorem mayFree_of_releasable {ptrs : List U32} (h : Releasable m o w ptrs) (hp : p ∈ ptrs) :
    MayFree m o w p := by
  by_cases h0 : p = 0
  · exact Or.inl h0
  by_cases hheld : ∃ a ∈ w.held, a.owner = o ∧ a.ptr = p
  · exact Or.inr (Or.inl hheld)
  · refine Or.inr (Or.inr (h p hp h0 fun a ha ho hptr => hheld ⟨a, ha, ho, hptr⟩))

/-- The bank after releasing a held allocation. -/
theorem myFree_held (h : WorldInv m w) {a : Held} (ha : a ∈ w.held) :
    myFree m w.bank a.ptr = (myMemFree m.toBank w.bank (a.alloc m).off).2 := by
  rw [myFree, if_neg (h.ptr_ne ha)]
  rfl

/-- Releasing what the caller holds. -/
theorem WorldInv.free_held (h : WorldInv m w) {a₀ : Held} (ha₀ : a₀ ∈ w.held)
    (hat₀ : Held.isAt o p a₀ = true) : WorldInv m (w.free m o p) := by
  obtain ⟨a, l₁, l₂, -, hat, hl, herase⟩ := List.exists_of_eraseP ha₀ hat₀
  obtain ⟨ho, hptr⟩ := Held.isAt_iff.mp hat
  have ha : a ∈ w.held := by simp [hl]
  have hr := h.ready ha
  have hbank : myFree m w.bank p = (myMemFree m.toBank w.bank (a.alloc m).off).2 := by
    rw [← hptr, myFree_held h ha]
  have hrep := h.rep
  rw [ensureInit_of_ready _ hr] at hrep
  have hfree := myMemFree_live hr hrep (List.mem_map_of_mem ha)
  have hready : (myFree m w.bank p).memrdy ≠ 0 := by
    rw [hbank, hfree]
    exact hr
  refine ⟨?_, fun hz => absurd hz hready, h.owns_snoc fun j hj hj' => ⟨a, ha, ho, ?_⟩⟩
  · change Represents _ (ensureInit _ (myFree m w.bank p)) ((w.held.eraseP _).map _)
    rw [ensureInit_of_ready _ hready, hbank, herase]
    refine myMemFree_represents hr (hrep.perm ?_)
    rw [hl, ← List.map_cons]
    exact (List.perm_middle).map _
  · by_contra hout
    simp only [hbank, hfree] at hj'
    rw [Held.block, Block.mem_iff] at hout
    rw [fill_outside _ _ (by omega)] at hj'
    exact hj hj'

/-- Releasing NULL or a pointer to a free block. -/
theorem WorldInv.free_stale (h : WorldInv m w) (hnot : ∀ a ∈ w.held, a.owner = o → a.ptr ≠ p)
    (hp : p = 0 ∨ w.bank.memmap ((p - m.membase).toNat / m.memblksize) = 0) :
    WorldInv m (w.free m o p) := by
  obtain ⟨hmap, hstate⟩ := myFree_stale h.zero hp
  have hkeep : ∀ j, w.bank.memmap j ≠ 0 → (myFree m w.bank p).memmap j ≠ 0 := by
    intro j hj
    rwa [hmap]
  refine ⟨?_, ?_, h.owns_snoc (Call.owns_of_keeps hkeep)⟩
  · change Represents _ (ensureInit _ (myFree m w.bank p)) ((w.held.eraseP _).map _)
    rw [eraseP_of_not_held hnot]
    rcases hstate with hs | hs
    · rw [hs]
      exact h.rep
    · rw [hs, ensureInit_of_ready _ (ensureInit_memrdy _ _)]
      exact h.rep
  · intro hr j hj
    change (myFree m w.bank p).memmap j = 0
    change (myFree m w.bank p).memrdy = 0 at hr
    rcases hstate with hs | hs
    · rw [hs] at hr
      rw [hmap]
      exact h.zero hr j hj
    · rw [hs] at hr
      exact absurd hr (ensureInit_memrdy _ _)

/-- A permitted `my_free` keeps the invariant and clears only the caller's blocks. -/
theorem WorldInv.free (h : WorldInv m w) (hp : MayFree m o w p) : WorldInv m (w.free m o p) := by
  by_cases hheld : ∃ a ∈ w.held, a.owner = o ∧ a.ptr = p
  · obtain ⟨a, ha, hat⟩ := hheld
    exact h.free_held ha (Held.isAt_iff.mpr hat)
  · apply h.free_stale
    · exact fun a ha ho hptr => hheld ⟨a, ha, ho, hptr⟩
    · exact hp.imp_right fun hfree => hfree.resolve_left hheld

/-- The cell a permitted pointer designates is zero after its release. -/
theorem free_cell (h : WorldInv m w) (hp : MayFree m o w p) (h0 : p ≠ 0) :
    (w.free m o p).bank.memmap ((p - m.membase).toNat / m.memblksize) = 0 := by
  change (myFree m w.bank p).memmap _ = 0
  by_cases hheld : ∃ a ∈ w.held, a.owner = o ∧ a.ptr = p
  · obtain ⟨a, ha, -, rfl⟩ := hheld
    have hrep := h.rep
    rw [ensureInit_of_ready _ (h.ready ha)] at hrep
    have hmem : a.alloc m ∈ w.held.map (Held.alloc m) := List.mem_map_of_mem ha
    have hpos := hrep.tiling.pos _ (List.mem_map_of_mem hmem)
    rw [myFree_held h ha, myMemFree_live (h.ready ha) hrep hmem]
    exact fill_inside _ _ le_rfl (by simp only [Held.alloc, Alloc.block] at hpos ⊢; omega)
  · have hcell := (hp.resolve_left h0).resolve_left hheld
    rw [(myFree_stale h.zero (Or.inr hcell)).1, hcell]

theorem Releasable.free {ptrs : List U32} (h : WorldInv m w) (hrel : Releasable m o w ptrs)
    (hp : MayFree m o w p) : Releasable m o (w.free m o p) ptrs := by
  intro q hq hq0 hstale
  by_cases hqp : q = p
  · subst hqp
    exact free_cell h hp hq0
  · refine free_keeps_zero (hrel q hq hq0 fun a ha ho hptr => hstale a ?_ ho hptr)
    refine (List.mem_eraseP_of_neg ?_).mpr ha
    rw [Held.isAt_iff]
    exact fun hat => hqp (hptr.symm.trans hat.2)

theorem WorldInv.release {ptrs : List U32} (l : List U32) (hsub : ∀ p ∈ l, p ∈ ptrs)
    (h : WorldInv m w) (hrel : Releasable m o w ptrs) : WorldInv m (freeAll m o w l) := by
  induction l generalizing w with
  | nil => exact h
  | cons p l ih =>
    have hp := mayFree_of_releasable hrel (hsub p (by simp))
    exact ih (fun q hq => hsub q (by simp [hq])) (h.free hp) (hrel.free h hp)

def AllHeld (o : Owner) (w : World) (ptrs : List U32) : Prop :=
  ∀ p ∈ ptrs, p ≠ 0 → ∃ a ∈ w.held, a.owner = o ∧ a.ptr = p

theorem AllHeld.releasable {ptrs : List U32} (h : AllHeld o w ptrs) : Releasable m o w ptrs := by
  intro p hp h0 hstale
  obtain ⟨a, ha, ho, hptr⟩ := h p hp h0
  exact absurd hptr (hstale a ha ho)

theorem WorldInv.obtain (h : WorldInv m w) (ns : List U32) :
    WorldInv m (mallocAll m o w ns).2 := by
  induction ns generalizing w with
  | nil => exact h
  | cons n ns ih => exact ih (h.malloc o n)

theorem mallocAll_held (ns : List U32) : AllHeld o (mallocAll m o w ns).2 (mallocAll m o w ns).1 := by
  induction ns generalizing w with
  | nil =>
    intro p hp
    simp [mallocAll] at hp
  | cons n ns ih =>
    intro p hp h0
    rcases List.mem_cons.mp hp with rfl | hp
    · refine ⟨⟨o, (w.malloc m o n).1, n⟩, held_subset_mallocAll ns ?_, rfl, rfl⟩
      change _ ∈ (if (w.malloc m o n).1 = 0 then w.held else _ :: w.held)
      rw [if_neg h0]
      exact List.mem_cons_self
    · exact ih p hp h0

theorem WorldInv.acquire (h : WorldInv m w) (ns : List U32) : WorldInv m (acquire m o w ns) := by
  unfold Stm32F407.acquire
  simp only
  split_ifs
  · exact (h.obtain ns).release _ (fun _ hp => hp) (mallocAll_held ns).releasable
  · exact h.obtain ns

theorem WorldInv.ethMalloc (h : WorldInv m w) (g : EthMem)
    (hrel : Releasable m .eth w g.ptrs) : WorldInv m (myEthMemMalloc m g w).2.2 := by
  by_cases hnull : ∀ p ∈ g.ptrs, p = 0
  · rw [(myEthMemMalloc_of_null hnull w).2]
    exact h.acquire ethSizes
  · push Not at hnull
    rw [myEthMemMalloc_of_set hnull w]
    exact h.release _ (fun _ hp => hp) hrel

theorem WorldInv.lwipMalloc (h : WorldInv m w) (n : U32) :
    WorldInv m (lwipCommMemMalloc m n w).2.2 := by
  rw [(lwipCommMemMalloc_eq n w).2]
  exact h.acquire [n, ramHeapSize]

/-- Every safe step keeps the invariant. -/
theorem memStep_inv {s s' : MemSystem} {e : MemEvent} (h : WorldInv m s.world)
    (hs : Guarded (MemStep m) (MemSafe m) s e s') : WorldInv m s'.world := by
  obtain ⟨hsafe, hs⟩ := hs
  cases hs with
  | ethMalloc => exact h.ethMalloc s.eth hsafe
  | ethFree => exact h.release _ (fun _ hp => hp) hsafe
  | lwipMalloc n => exact h.lwipMalloc n
  | lwipFree => exact h.release _ (fun _ hp => hp) hsafe
  | clientMalloc n => exact h.malloc _ _
  | clientFree a ha ho => exact h.free (Or.inr (Or.inl ⟨a, ha, ho, rfl⟩))

theorem MemSystem.start_inv : WorldInv m MemSystem.start.world where
  rep := myMemInit_represents m.toBank _ m.tbl_lt
  zero _ _ _ := rfl
  owns := by simp [MemSystem.start]

/-- A stale global never points into a block that its own driver holds. -/
def StaleOut (m : Sram) (o : Owner) (w : World) (ptrs : List U32) : Prop :=
  ∀ p ∈ ptrs, p ≠ 0 → (∀ a ∈ w.held, a.owner = o → a.ptr ≠ p) →
    (p - m.membase).toNat < m.memsize ∧
    ∀ a ∈ w.held, a.owner = o → (p - m.membase).toNat / m.memblksize ∉ a.block m

theorem StaleOut.congr {w' : World} {ptrs : List U32}
    (hmem : ∀ a : Held, a.owner = o → (a ∈ w'.held ↔ a ∈ w.held)) (h : StaleOut m o w ptrs) :
    StaleOut m o w' ptrs := by
  intro p hp h0 hstale
  obtain ⟨hlt, hout⟩ := h p hp h0 fun a ha ho => hstale a ((hmem a ho).mpr ha) ho
  exact ⟨hlt, fun a ha ho => hout a ((hmem a ho).mp ha) ho⟩

theorem AllHeld.staleOut {ptrs : List U32} (h : AllHeld o w ptrs) : StaleOut m o w ptrs := by
  intro p hp h0 hstale
  obtain ⟨a, ha, ho, hptr⟩ := h p hp h0
  exact absurd hptr (hstale a ha ho)

/-- Held allocations whose blocks share a cell are at one address. -/
theorem WorldInv.ptr_eq_of_mem (h : WorldInv m w) {a c : Held} (ha : a ∈ w.held) (hc : c ∈ w.held)
    {j : ℕ} (hja : j ∈ a.block m) (hjc : j ∈ c.block m) : a.ptr = c.ptr := by
  have hma : a.alloc m ∈ w.held.map (Held.alloc m) := List.mem_map_of_mem ha
  have hmc : c.alloc m ∈ w.held.map (Held.alloc m) := List.mem_map_of_mem hc
  have heq := h.rep.tiling.eq_of_mem (List.mem_map_of_mem hma) (List.mem_map_of_mem hmc) hja hjc
  have hstart := congrArg Block.start heq
  simp only [Alloc.block] at hstart
  have hoff : (a.alloc m).off = (c.alloc m).off := by
    apply BitVec.eq_of_toNat_eq
    rw [← Nat.div_mul_cancel (h.rep.aligned _ hma), ← Nat.div_mul_cancel (h.rep.aligned _ hmc),
      hstart]
  simpa only [Held.alloc, BitVec.sub_add_cancel] using congrArg (· + m.membase) hoff

theorem WorldInv.mem_block (h : WorldInv m w) {a : Held} (ha : a ∈ w.held) :
    (a.ptr - m.membase).toNat / m.memblksize ∈ a.block m := by
  have hpos := h.rep.tiling.pos _ (List.mem_map_of_mem (List.mem_map_of_mem ha))
  exact ⟨le_rfl, Nat.lt_add_of_pos_right hpos⟩

theorem StaleOut.free {ptrs : List U32} (h : WorldInv m w) (hout : StaleOut m o w ptrs) (p : U32) :
    StaleOut m o (w.free m o p) ptrs := by
  intro q hq h0 hstale
  have hsub : ∀ a ∈ (w.free m o p).held, a ∈ w.held := fun a ha => List.mem_of_mem_eraseP ha
  by_cases hbefore : ∀ a ∈ w.held, a.owner = o → a.ptr ≠ q
  · obtain ⟨hlt, hno⟩ := hout q hq h0 hbefore
    exact ⟨hlt, fun a ha ho => hno a (hsub a ha) ho⟩
  · push Not at hbefore
    obtain ⟨c, hc, -, rfl⟩ := hbefore
    refine ⟨h.rep.off_lt (List.mem_map_of_mem hc), fun a ha ho hmem => ?_⟩
    exact hstale a ha ho (h.ptr_eq_of_mem (hsub a ha) hc hmem (h.mem_block hc))

theorem StaleOut.freeAll {ptrs : List U32} (l : List U32) (hsub : ∀ p ∈ l, p ∈ ptrs)
    (h : WorldInv m w) (hrel : Releasable m o w ptrs) (hout : StaleOut m o w ptrs) :
    StaleOut m o (freeAll m o w l) ptrs := by
  induction l generalizing w with
  | nil => exact hout
  | cons p l ih =>
    have hp := mayFree_of_releasable hrel (hsub p (by simp))
    exact ih (fun q hq => hsub q (by simp [hq])) (h.free hp) (hrel.free h hp) (hout.free h p)

theorem StaleOut.acquire (h : WorldInv m w) (ns : List U32) :
    StaleOut m o (acquire m o w ns) (mallocAll m o w ns).1 := by
  have hheld : AllHeld o _ _ := mallocAll_held (m := m) (w := w) ns
  unfold Stm32F407.acquire
  simp only
  split_ifs
  · exact hheld.staleOut.freeAll _ (fun _ hp => hp) (h.obtain ns) hheld.releasable
  · exact hheld.staleOut

structure ClientsInv (m : Sram) (s : MemSystem) : Prop where
  world : WorldInv m s.world
  eth : StaleOut m .eth s.world s.eth.ptrs
  lwip : StaleOut m .lwip s.world s.lwip.ptrs
  ethHeld : ∀ a ∈ s.world.held, a.owner = .eth → a.ptr ∈ s.eth.ptrs

theorem clientsInv_ethMalloc {s : MemSystem} (h : ClientsInv m s)
    (hrel : Releasable m .eth s.world s.eth.ptrs) :
    ClientsInv m
      ⟨(myEthMemMalloc m s.eth s.world).2.2, (myEthMemMalloc m s.eth s.world).2.1, s.lwip⟩ := by
  by_cases hnull : ∀ p ∈ s.eth.ptrs, p = 0
  · obtain ⟨hptrs, hworld⟩ := myEthMemMalloc_of_null (m := m) hnull s.world
    refine ⟨h.world.ethMalloc s.eth hrel, ?_, ?_, ?_⟩
    · simp only [hptrs, hworld]
      exact StaleOut.acquire h.world ethSizes
    · simp only [hworld]
      exact h.lwip.congr fun a ho => mem_acquire_of_other ho (by decide) ethSizes
    · intro a ha ho
      simp only [hptrs, hworld] at ha ⊢
      have hmem : a ∈ (mallocAll m .eth s.world ethSizes).2.held := by
        unfold acquire at ha
        simp only at ha
        split_ifs at ha
        · exact freeAll_held_subset _ ha
        · exact ha
      refine (mem_mallocAll ethSizes hmem).resolve_left fun hold => ?_
      exact h.world.ptr_ne hold (hnull _ (h.ethHeld a hold ho))
  · push Not at hnull
    rw [myEthMemMalloc_of_set hnull]
    exact ⟨h.world.release _ (fun _ hp => hp) hrel,
      h.eth.freeAll _ (fun _ hp => hp) h.world hrel,
      h.lwip.congr fun a ho => mem_freeAll_of_other ho (by decide) _,
      fun a ha ho => h.ethHeld a (freeAll_held_subset _ ha) ho⟩

theorem memStep_clientsInv {s s' : MemSystem} {e : MemEvent} (h : ClientsInv m s)
    (hs : Guarded (MemStep m) (MemSafe m) s e s') : ClientsInv m s' := by
  have hworld := memStep_inv h.world hs
  obtain ⟨hsafe, hs⟩ := hs
  cases hs with
  | ethMalloc => exact clientsInv_ethMalloc h hsafe
  | ethFree =>
    exact ⟨hworld, h.eth.freeAll _ (fun _ hp => hp) h.world hsafe,
      h.lwip.congr fun a ho => mem_freeAll_of_other ho (by decide) s.eth.ptrs,
      fun a ha ho => h.ethHeld a (freeAll_held_subset s.eth.ptrs ha) ho⟩
  | lwipMalloc n =>
    obtain ⟨hptrs, hw⟩ := lwipCommMemMalloc_eq (m := m) n s.world
    refine ⟨hworld, ?_, ?_, ?_⟩
    · simp only [hw]
      exact h.eth.congr fun a ho => mem_acquire_of_other ho (by decide) _
    · simp only [hw, hptrs]
      exact StaleOut.acquire h.world _
    · intro a ha ho
      simp only [hw] at ha
      exact h.ethHeld a ((mem_acquire_of_other ho (by decide) _).mp ha) ho
  | lwipFree =>
    exact ⟨hworld, h.eth.congr fun a ho => mem_freeAll_of_other ho (by decide) s.lwip.ptrs,
      h.lwip.freeAll _ (fun _ hp => hp) h.world hsafe,
      fun a ha ho => h.ethHeld a ((mem_freeAll_of_other ho (by decide) s.lwip.ptrs).mp ha) ho⟩
  | clientMalloc n =>
    exact ⟨hworld, h.eth.congr fun a ho => World.mem_malloc_of_other ho (by decide),
      h.lwip.congr fun a ho => World.mem_malloc_of_other ho (by decide),
      fun a ha ho => h.ethHeld a ((World.mem_malloc_of_other ho (by decide)).mp ha) ho⟩
  | clientFree a ha ho =>
    exact ⟨hworld, h.eth.congr fun a ho => World.mem_free_of_other ho (by decide),
      h.lwip.congr fun a ho => World.mem_free_of_other ho (by decide),
      fun a ha ho => h.ethHeld a ((World.mem_free_of_other ho (by decide)).mp ha) ho⟩

theorem MemSystem.start_clientsInv : ClientsInv m MemSystem.start where
  world := MemSystem.start_inv
  eth := by
    intro p hp h0
    exact absurd (by simpa [MemSystem.start, EthMem.ptrs] using hp) h0
  lwip := by
    intro p hp h0
    exact absurd (by simpa [MemSystem.start, LwipMem.ptrs] using hp) h0
  ethHeld := by simp [MemSystem.start]

/-- Releasing a stale pointer to a used block clears a cell the caller does not hold. -/
theorem free_not_owns {ptrs : List U32} (h : WorldInv m w) (hout : StaleOut m o w ptrs)
    (hp : p ∈ ptrs) (hbad : ¬ MayFree m o w p) : ∃ c ∈ (w.free m o p).log, ¬ c.Owns m := by
  set j := (p - m.membase).toNat / m.memblksize with hj
  have h0 : p ≠ 0 := fun h0 => hbad (Or.inl h0)
  have hnot : ∀ a ∈ w.held, a.owner = o → a.ptr ≠ p := fun a ha ho hptr =>
    hbad (Or.inr (Or.inl ⟨a, ha, ho, hptr⟩))
  have hcell : w.bank.memmap j ≠ 0 := fun hz => hbad (Or.inr (Or.inr hz))
  obtain ⟨hlt, hforeign⟩ := hout p hp h0 hnot
  have hjlt : j < m.memtblsize := by
    rw [hj, Nat.div_lt_iff_lt_mul m.blk_pos, ← m.size_eq]
    exact hlt
  have hr : w.bank.memrdy ≠ 0 := fun hr => hcell (h.zero hr j hjlt)
  have hrep := h.rep
  rw [ensureInit_of_ready _ hr] at hrep
  have hlen : 0 < (w.bank.memmap j).toInt.toNat := by
    have hne : w.bank.cells j ≠ 0 := fun hz => hcell (BitVec.eq_of_toNat_eq hz)
    rw [Ne, hrep.tiling.zero_iff hjlt] at hne
    push Not at hne
    obtain ⟨c, hc, hjc⟩ := hne
    have hmark : (w.bank.memmap j).toNat = c.len := hrep.tiling.mark c hc j hjc
    have hin := hrep.tiling.inside c hc
    have hpos := hrep.tiling.pos c hc
    have htbl := m.tbl_lt
    rw [BitVec.toInt_eq_toNat_of_lt (by omega)]
    omega
  have hafter : (w.free m o p).bank.memmap j = 0 := by
    change (myFree m w.bank p).memmap j = 0
    rw [myFree, if_neg h0, myMemFree, if_neg hr, if_pos hlt]
    exact fill_inside _ _ le_rfl (Nat.lt_add_of_pos_right hlen)
  refine ⟨⟨o, w.bank.memmap, (w.free m o p).bank.memmap, w.held⟩, ?_, fun howns => ?_⟩
  · exact List.mem_append_right _ (List.mem_singleton_self _)
  · obtain ⟨a, ha, ho, hmem⟩ := howns j hcell hafter
    exact hforeign a ha ho hmem

/-- A permitted release of one pointer does not repair another one. -/
theorem not_mayFree_free {ptrs : List U32} {q : U32} (h : WorldInv m w) (hout : StaleOut m o w ptrs)
    (hp : MayFree m o w p) (hq : q ∈ ptrs) (hbad : ¬ MayFree m o w q) :
    ¬ MayFree m o (w.free m o p) q := by
  have h0 : q ≠ 0 := fun h0 => hbad (Or.inl h0)
  have hnot : ∀ a ∈ w.held, a.owner = o → a.ptr ≠ q := fun a ha ho hptr =>
    hbad (Or.inr (Or.inl ⟨a, ha, ho, hptr⟩))
  rintro (hz | ⟨a, ha, ho, hptr⟩ | hcell)
  · exact h0 hz
  · exact hnot a (List.mem_of_mem_eraseP ha) ho hptr
  · have howns := (h.free hp).owns _ (List.mem_append_right _ (List.mem_singleton_self _))
    obtain ⟨a, ha, ho, hmem⟩ := howns _ (fun hz => hbad (Or.inr (Or.inr hz))) hcell
    exact (hout q hq h0 hnot).2 a ha ho hmem

theorem freeAll_not_owns {ptrs : List U32} (l : List U32) (hsub : ∀ p ∈ l, p ∈ ptrs)
    (h : WorldInv m w) (hout : StaleOut m o w ptrs) (hbad : ∃ p ∈ l, ¬ MayFree m o w p) :
    ∃ c ∈ (freeAll m o w l).log, ¬ c.Owns m := by
  induction l generalizing w with
  | nil => simp at hbad
  | cons p l ih =>
    by_cases hp : MayFree m o w p
    · refine ih (fun q hq => hsub q (by simp [hq])) (h.free hp) (hout.free h p) ?_
      obtain ⟨q, hq, hq'⟩ := hbad
      rcases List.mem_cons.mp hq with rfl | hq
      · exact absurd hp hq'
      · exact ⟨q, hq, not_mayFree_free h hout hp (hsub q (by simp [hq])) hq'⟩
    · obtain ⟨c, hc, hno⟩ := free_not_owns h hout (hsub p (by simp)) hp
      exact ⟨c, freeAll_log l hc, hno⟩

theorem exists_not_mayFree {ptrs : List U32} (h : ¬ Releasable m o w ptrs) :
    ∃ p ∈ ptrs, p ≠ 0 ∧ ¬ MayFree m o w p := by
  unfold Releasable at h
  push Not at h
  obtain ⟨p, hp, h0, hnot, hcell⟩ := h
  refine ⟨p, hp, h0, ?_⟩
  rintro (hz | ⟨a, ha, ho, hptr⟩ | hz)
  · exact h0 hz
  · exact hnot a ha ho hptr
  · exact hcell hz

/-- A step that is not safe makes a call that clears a block its caller does not hold. -/
theorem memStep_not_owns {s s' : MemSystem} {e : MemEvent} (h : ClientsInv m s)
    (hs : MemStep m s e s') (hbad : ¬ MemSafe m s e) : ∃ c ∈ s'.world.log, ¬ c.Owns m := by
  cases hs with
  | ethMalloc =>
    obtain ⟨p, hp, h0, hno⟩ := exists_not_mayFree hbad
    rw [myEthMemMalloc_of_set ⟨p, hp, h0⟩]
    exact freeAll_not_owns _ (fun _ hp => hp) h.world h.eth ⟨p, hp, hno⟩
  | ethFree =>
    obtain ⟨p, hp, -, hno⟩ := exists_not_mayFree hbad
    exact freeAll_not_owns _ (fun _ hp => hp) h.world h.eth ⟨p, hp, hno⟩
  | lwipFree =>
    obtain ⟨p, hp, -, hno⟩ := exists_not_mayFree hbad
    exact freeAll_not_owns _ (fun _ hp => hp) h.world h.lwip ⟨p, hp, hno⟩
  | lwipMalloc => exact absurd trivial hbad
  | clientMalloc => exact absurd trivial hbad
  | clientFree => exact absurd trivial hbad

theorem Releasable.freeAll {ptrs : List U32} (l : List U32) (hsub : ∀ p ∈ l, p ∈ ptrs)
    (h : WorldInv m w) (hrel : Releasable m o w ptrs) : Releasable m o (freeAll m o w l) ptrs := by
  induction l generalizing w with
  | nil => exact hrel
  | cons p l ih =>
    have hp := mayFree_of_releasable hrel (hsub p (by simp))
    exact ih (fun q hq => hsub q (by simp [hq])) (h.free hp) (hrel.free h hp)

theorem Releasable.freeAll_of_other {ptrs : List U32} {o' : Owner} (hne : o ≠ o') (l : List U32)
    (hrel : Releasable m o w ptrs) : Releasable m o (Stm32F407.freeAll m o' w l) ptrs := by
  intro p hp h0 hstale
  refine freeAll_keeps_zero l (hrel p hp h0 fun a ha ho => hstale a ?_ ho)
  exact (mem_freeAll_of_other ho hne l).mpr ha

theorem exists_lwipMalloc {s : MemSystem} {n : U32} {ps : List U32}
    (hps : (mallocAll m .lwip s.world [n, ramHeapSize]).1 = ps) (h0 : 0 ∉ ps) :
    ∃ s', MemStep m s (.lwipMalloc n) s' ∧ s'.lwip.ptrs = ps ∧ s'.eth = s.eth ∧
      s'.world = (mallocAll m .lwip s.world [n, ramHeapSize]).2 := by
  obtain ⟨hptrs, hworld⟩ := lwipCommMemMalloc_eq (m := m) n s.world
  rw [acquire] at hworld
  simp only [hps, if_neg h0] at hworld
  exact ⟨_, .lwipMalloc s n, hptrs.trans hps, rfl, hworld⟩

theorem exists_ethMalloc {s : MemSystem} {ps : List U32} (hnull : ∀ p ∈ s.eth.ptrs, p = 0)
    (hps : (mallocAll m .eth s.world ethSizes).1 = ps) (h0 : 0 ∉ ps) :
    ∃ s', MemStep m s .ethMalloc s' ∧ s'.eth.ptrs = ps ∧ s'.lwip = s.lwip ∧
      s'.world = (mallocAll m .eth s.world ethSizes).2 := by
  obtain ⟨hptrs, hworld⟩ := myEthMemMalloc_of_null (m := m) hnull s.world
  rw [acquire] at hworld
  simp only [hps, if_neg h0] at hworld
  exact ⟨_, .ethMalloc s, hptrs.trans hps, rfl, hworld⟩

/-- The lwIP and the Ethernet driver obtain their blocks and a client gets one. -/
theorem obtained_run : ∃ s, Run (Guarded (MemStep sramIn) (MemSafe sramIn)) MemSystem.start
    [.lwipMalloc 400, .ethMalloc, .clientMalloc 192] s ∧
      s.lwip.ptrs = [0x20007640, 0x20004E00] ∧
      s.eth.ptrs = [0x20004D40, 0x20004C80, 0x20002E80, 0x20001080] ∧
      s.world.held = [⟨.client, 0x20000FC0, 192⟩,
        ⟨.eth, 0x20001080, 7620⟩, ⟨.eth, 0x20002E80, 7620⟩, ⟨.eth, 0x20004C80, 160⟩,
        ⟨.eth, 0x20004D40, 160⟩, ⟨.lwip, 0x20004E00, 10268⟩, ⟨.lwip, 0x20007640, 400⟩] := by
  have hempty : Stacked sramIn.memtblsize MemSystem.start.world.bank.memmap sramIn.memtblsize :=
    stacked_empty fun _ _ => rfl
  have hsizes : (0 : U32) ∉ [400, ramHeapSize] := by decide +kernel
  obtain ⟨hl, hstack₁⟩ := mallocAll_stacked (o := .lwip) (fun _ _ _ => rfl) hempty hsizes
    (by decide +kernel)
  rw [show stackPtrs sramIn sramIn.memtblsize [400, ramHeapSize] = [0x20007640, 0x20004E00] by
    decide +kernel] at hl
  obtain ⟨s₁, hs₁, hl₁, he₁, hw₁⟩ := exists_lwipMalloc hl (by decide)
  have hstep₁ : Guarded (MemStep sramIn) (MemSafe sramIn) MemSystem.start (.lwipMalloc 400) s₁ :=
    ⟨trivial, hs₁⟩
  have hinv₁ := memStep_clientsInv MemSystem.start_clientsInv hstep₁
  have hnull : ∀ p ∈ s₁.eth.ptrs, p = 0 := by simp [he₁, MemSystem.start, EthMem.ptrs]
  rw [← hw₁] at hstack₁
  have hsizes' : 0 ∉ ethSizes := by decide +kernel
  obtain ⟨he, hstack₂⟩ := mallocAll_stacked (o := .eth) hinv₁.world.zero hstack₁ hsizes'
    (by decide +kernel)
  rw [show stackPtrs sramIn _ ethSizes = [0x20004D40, 0x20004C80, 0x20002E80, 0x20001080] by
    decide +kernel] at he
  obtain ⟨s₂, hs₂, he₂, hl₂, hw₂⟩ := exists_ethMalloc hnull he (by decide)
  have hstep₂ : Guarded (MemStep sramIn) (MemSafe sramIn) s₁ .ethMalloc s₂ :=
    ⟨fun p hp h0 => absurd (hnull p hp) h0, hs₂⟩
  have hinv₂ := memStep_clientsInv hinv₁ hstep₂
  rw [← hw₂] at hstack₂
  have hsize : (192 : U32) ≠ 0 := by decide
  have hptr := (hstack₂.malloc hinv₂.world.zero hsize (by decide +kernel)).1
  have hstep₃ : Guarded (MemStep sramIn) (MemSafe sramIn) s₂ (.clientMalloc 192) _ :=
    ⟨trivial, MemStep.clientMalloc s₂ 192⟩
  refine ⟨_, ((Run.single hstep₁).snoc hstep₂).snoc hstep₃, by rw [hl₂, hl₁], he₂, ?_⟩
  have hheld : s₂.world.held =
      (obtained .eth [0x20004D40, 0x20004C80, 0x20002E80, 0x20001080] ethSizes).reverse ++
        ((obtained .lwip [0x20007640, 0x20004E00] [400, ramHeapSize]).reverse ++ []) := by
    rw [hw₂, mallocAll_held_eq, he, hw₁, mallocAll_held_eq, hl]
    rfl
  change (if (myMalloc sramIn s₂.world.bank 192).1 = 0 then _ else _) = _
  rw [hptr, hheld]
  decide +kernel

/-- From a state in which both drivers may release their globals they may do so any number
of times, in any order. -/
theorem releases_run {evs : List MemEvent} (hevs : ∀ e ∈ evs, e = .lwipFree ∨ e = .ethFree)
    {s : MemSystem} (h : ClientsInv m s) (hl : Releasable m .lwip s.world s.lwip.ptrs)
    (he : Releasable m .eth s.world s.eth.ptrs) :
    ∃ s', Run (Guarded (MemStep m) (MemSafe m)) s evs s' ∧ s'.lwip = s.lwip ∧ s'.eth = s.eth ∧
      ∀ a ∈ s.world.held, a.owner = .client → a ∈ s'.world.held := by
  induction evs generalizing s with
  | nil => exact ⟨s, Run.nil, rfl, rfl, fun _ ha _ => ha⟩
  | cons e evs ih =>
    have hrest : ∀ e ∈ evs, e = .lwipFree ∨ e = .ethFree := fun e he => hevs e (List.mem_cons_of_mem _ he)
    obtain ⟨s₁, hs₁, hl₁, he₁, hlwip, heth, hheld⟩ : ∃ s₁, Guarded (MemStep m) (MemSafe m) s e s₁ ∧
        Releasable m .lwip s₁.world s₁.lwip.ptrs ∧ Releasable m .eth s₁.world s₁.eth.ptrs ∧
        s₁.lwip = s.lwip ∧ s₁.eth = s.eth ∧
        ∀ a ∈ s.world.held, a.owner = .client → a ∈ s₁.world.held := by
      rcases hevs e List.mem_cons_self with rfl | rfl
      · exact ⟨_, ⟨hl, .lwipFree s⟩, hl.freeAll s.lwip.ptrs (fun _ hp => hp) h.world,
          he.freeAll_of_other (by decide) s.lwip.ptrs, rfl, rfl,
          fun a ha ho => (mem_freeAll_of_other ho (by decide) s.lwip.ptrs).mpr ha⟩
      · exact ⟨_, ⟨he, .ethFree s⟩, hl.freeAll_of_other (by decide) s.eth.ptrs,
          he.freeAll s.eth.ptrs (fun _ hp => hp) h.world, rfl, rfl,
          fun a ha ho => (mem_freeAll_of_other ho (by decide) s.eth.ptrs).mpr ha⟩
    obtain ⟨s', hrun, hlwip', heth', hheld'⟩ := ih hrest (memStep_clientsInv h hs₁) hl₁ he₁
    exact ⟨s', (Run.single hs₁).append hrun, hlwip'.trans hlwip, heth'.trans heth,
      fun a ha ho => hheld' a (hheld a ha ho) ho⟩

/-- In every history whose steps are all safe, each call of `my_malloc` and `my_free`
clears only cells of allocations its caller holds; and the first step that is not
safe makes a call that does not. -/
theorem releases_own_blocks (m : Sram) (evs : List MemEvent) (s : MemSystem)
    (hrun : Run (Guarded (MemStep m) (MemSafe m)) MemSystem.start evs s) :
    (∀ c ∈ s.world.log, c.Owns m) ∧
    ∀ e s', MemStep m s e s' → ¬ MemSafe m s e → ∃ c ∈ s'.world.log, ¬ c.Owns m := by
  have hinv : ClientsInv m s := hrun.invariant MemSystem.start_clientsInv
    fun _ _ _ h hs => memStep_clientsInv h hs
  exact ⟨hinv.world.owns, fun e s' hs hbad => memStep_not_owns hinv hs hbad⟩

/-- Both drivers obtain their blocks and a client gets one; then each driver releases its
blocks twice, the second time through stale globals that point at free blocks. -/
theorem releases_own_blocks_sramIn :
    ∃ s, Run (MemStep sramIn) MemSystem.start ([.lwipMalloc 400, .ethMalloc, .clientMalloc 192] ++
        [.lwipFree, .ethFree, .lwipFree, .ethFree]) s ∧
      s.lwip.ptrs = [0x20007640, 0x20004E00] ∧ ⟨.client, 0x20000FC0, 192⟩ ∈ s.world.held ∧
      ∀ c ∈ s.world.log, c.Owns sramIn := by
  obtain ⟨s, hrun, hl, he, hheld⟩ := obtained_run
  have hinv := hrun.invariant MemSystem.start_clientsInv fun _ _ _ h hs => memStep_clientsInv h hs
  have hlwip : AllHeld .lwip s.world s.lwip.ptrs := by
    simp [AllHeld, hl, hheld]
  have heth : AllHeld .eth s.world s.eth.ptrs := by
    simp [AllHeld, he, hheld]
  have hevs : ∀ e ∈ [.lwipFree, .ethFree, .lwipFree, .ethFree], e = .lwipFree ∨ e = MemEvent.ethFree := by
    simp
  obtain ⟨s', hrun', hl', -, hclient⟩ := releases_run hevs hinv hlwip.releasable heth.releasable
  have hall := hrun.append hrun'
  refine ⟨s', hall.of_guarded, hl' ▸ hl, hclient _ ?_ rfl, (releases_own_blocks sramIn _ s' hall).1⟩
  rw [hheld]
  exact List.mem_cons_self

/-- The heap block of lwIP on an empty table: 161 cells at the top of the bank. -/
theorem malloc_ramHeap {s : BankState} (hr : s.memrdy ≠ 0) (hz : ∀ j < 480, s.memmap j = 0) :
    myMalloc sramIn s ramHeapSize = (0x20004FC0, { s with memmap := fill s.memmap 319 161 161 }) := by
  have hblocks : blocksFor sramIn.toBank ramHeapSize = 161 := by decide
  have hscan : scan s.memmap 161 480 0 = some 319 :=
    (scan_eq_some_iff (by decide)).mpr ((stacked_empty hz).topmost (by decide) (by decide))
  unfold myMalloc myMemMalloc
  simp only [ensureInit_of_ready _ hr, hblocks]
  rw [if_neg (show ¬ ramHeapSize = 0 by decide)]
  simp only [sramIn, mem1, hscan]
  rfl

/-- A request of more than the whole bank fails. -/
theorem malloc_tooLarge (s : BankState) :
    myMalloc sramIn s 40000 = (0, ensureInit sramIn.toBank s) := by
  have hres := myMemMalloc_result sramIn.toBank s 40000
  have hblocks : blocksFor sramIn.toBank 40000 = 625 := by decide
  unfold myMalloc
  simp only
  generalize myMemMalloc sramIn.toBank s 40000 = r at hres
  obtain ⟨off, s'⟩ := r
  cases hres with
  | fail => rfl
  | found p _ _ hin =>
    rw [hblocks] at hin
    exact absurd hin (by simp [sramIn, mem1])

theorem free_ramHeap {map : ℕ → U32} {rdy : U8} (hr : rdy ≠ 0) (hcell : map 319 = 161) :
    myFree sramIn ⟨map, rdy⟩ 0x20004FC0 = ⟨fill map 319 0 161, rdy⟩ := by
  unfold myFree myMemFree
  rw [if_neg (by decide), if_neg hr, if_pos (by decide)]
  simp only [show (0x20004FC0 - sramIn.membase).toNat / sramIn.memblksize = 319 by decide, hcell]
  rfl

/-- `lwip_comm_mem_malloc` on an empty table with such a pool: it fails, releases its
heap block and keeps the pointer to it. -/
theorem lwipCommMemMalloc_tooLarge {w : World} (hheld : w.held = [])
    (hz : ∀ j < 480, (ensureInit sramIn.toBank w.bank).memmap j = 0) :
    (lwipCommMemMalloc sramIn 40000 w).2.1 = ⟨0, 0x20004FC0⟩ ∧
    (lwipCommMemMalloc sramIn 40000 w).2.2.held = [] ∧
    (lwipCommMemMalloc sramIn 40000 w).2.2.bank.memrdy ≠ 0 ∧
    ∀ j < 480, (lwipCommMemMalloc sramIn 40000 w).2.2.bank.memmap j = 0 := by
  have hr := ensureInit_memrdy sramIn.toBank w.bank
  have hlarge := malloc_tooLarge w.bank
  generalize ensureInit sramIn.toBank w.bank = s at hr hz hlarge
  have hcell : fill s.memmap 319 161 161 319 = 161 := by
    rw [fill_inside _ _ (by decide) (by decide)]
  have hnull : ∀ s, myFree sramIn s 0 = s := fun s => if_pos rfl
  unfold lwipCommMemMalloc World.malloc lwipCommMemFree World.free
  simp only [hlarge, malloc_ramHeap hr hz, hheld, true_or, if_true, hnull, free_ramHeap hr hcell]
  refine ⟨trivial, by simp [Held.isAt], hr, fun j hj => ?_⟩
  rw [fill_apply, fill_apply]
  split_ifs
  · rfl
  · exact hz j hj

theorem exists_stale_heap {s : MemSystem} (hheld : s.world.held = [])
    (hz : ∀ j < 480, (ensureInit sramIn.toBank s.world.bank).memmap j = 0) :
    ∃ s', MemStep sramIn s (.lwipMalloc 40000) s' ∧ s'.lwip = ⟨0, 0x20004FC0⟩ ∧
      s'.world.held = [] ∧ s'.world.bank.memrdy ≠ 0 ∧ ∀ j < 480, s'.world.bank.memmap j = 0 := by
  refine ⟨_, MemStep.lwipMalloc s 40000, ?_⟩
  simp only
  exact lwipCommMemMalloc_tooLarge hheld hz

/-- A client that is given the block of a stale heap pointer makes its release unsafe. -/
theorem not_safe_of_stale_heap {s : MemSystem} (hglob : s.lwip = ⟨0, 0x20004FC0⟩)
    (hheld : s.world.held = []) (hr : s.world.bank.memrdy ≠ 0)
    (hz : ∀ j < 480, s.world.bank.memmap j = 0) :
    ¬ MemSafe sramIn ⟨(s.world.malloc sramIn .client ramHeapSize).2, s.eth, s.lwip⟩ .lwipFree := by
  intro hsafe
  have hheap := malloc_ramHeap hr hz
  have hcell := hsafe 0x20004FC0 (by simp [hglob, LwipMem.ptrs]) (by decide) ?_
  · simp only [World.malloc, hheap] at hcell
    rw [fill_inside _ _ (by decide) (by decide)] at hcell
    exact absurd hcell (by decide)
  · intro a ha ho
    simp only [World.malloc, hheap, hheld] at ha
    obtain rfl : a = _ := by simpa using ha
    exact absurd ho (by decide)

/-- `lwip_comm_mem_malloc` fails on a pool request of 40000 bytes and releases its
heap block; a client gets that block; `lwip_comm_mem_free` releases it again. -/
theorem releases_foreign_block :
    ¬ ∀ evs s, Run (MemStep sramIn) MemSystem.start evs s → ∀ c ∈ s.world.log, c.Owns sramIn := by
  intro hall
  have hz : ∀ j < 480, (ensureInit sramIn.toBank MemSystem.start.world.bank).memmap j = 0 := by
    intro j _
    rw [ensureInit_memmap fun _ _ _ => rfl]
    rfl
  obtain ⟨s₁, hstep₁, hglob, hheld, hr, hz⟩ := exists_stale_heap rfl hz
  have hsafe₁ : MemSafe sramIn MemSystem.start (.lwipMalloc 40000) := trivial
  have hsafe₂ : MemSafe sramIn s₁ (.clientMalloc ramHeapSize) := trivial
  have hstep₂ := @MemStep.clientMalloc sramIn s₁ ramHeapSize
  have hinv₁ := memStep_clientsInv MemSystem.start_clientsInv ⟨hsafe₁, hstep₁⟩
  have hinv₂ := memStep_clientsInv hinv₁ ⟨hsafe₂, hstep₂⟩
  have hstep₃ := @MemStep.lwipFree sramIn
    ⟨(s₁.world.malloc sramIn .client ramHeapSize).2, s₁.eth, s₁.lwip⟩
  obtain ⟨c, hc, hno⟩ :=
    memStep_not_owns hinv₂ hstep₃ (not_safe_of_stale_heap hglob hheld hr hz)
  exact hno (hall _ _ (((Run.single hstep₁).snoc hstep₂).snoc hstep₃) c hc)

end Stm32F407
