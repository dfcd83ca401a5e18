import Stm32F407.Spec.RtosHeap
import Stm32F407.Lib.Segments

/-! The free list of the kernel's heap. The memory between its two ends is cut into
segments, and the headers of the free ones are linked in their order; taking a segment
out, cutting it and putting it back are followed header by header. -/

namespace Stm32F407

open Lib Segs

abbrev adr (a : ℕ) : U32 := BitVec.ofNat 32 a

theorem adr_inj {a b : ℕ} (ha : a < 2 ^ 32) (hb : b < 2 ^ 32) : adr a = adr b ↔ a = b := by
  rw [← BitVec.toNat_inj, BitVec.toNat_ofNat, BitVec.toNat_ofNat, Nat.mod_eq_of_lt ha,
    Nat.mod_eq_of_lt hb]

theorem adr_lt {a b : ℕ} (ha : a < 2 ^ 32) (hb : b < 2 ^ 32) : adr a < adr b ↔ a < b := by
  rw [BitVec.lt_def, BitVec.toNat_ofNat, BitVec.toNat_ofNat, Nat.mod_eq_of_lt ha, Nat.mod_eq_of_lt hb]

theorem adr_add (a b : ℕ) : adr a + adr b = adr (a + b) := (BitVec.ofNat_add a b).symm

theorem adr_sub {a b : ℕ} (h : b ≤ a) : adr a - adr b = adr (a - b) := by
  rw [BitVec.sub_eq_iff_eq_add, adr_add, Nat.sub_add_cancel h]

theorem adr_toNat (p : U32) : adr p.toNat = p := by simp

namespace PortHeap

variable {g : HeapPlace} {h h' : PortHeap} {m m' : U32 → BlockLink} {L pre post : List (Seg U32)}
  {x a b c e n p q w rounds : ℕ}

@[simp] theorem setNext_self (h : PortHeap) (p q : U32) :
    (h.setNext p q).mem p = ⟨q, (h.mem p).xBlockSize⟩ := Function.update_self _ _ _

@[simp] theorem setSize_self (h : PortHeap) (p q : U32) :
    (h.setSize p q).mem p = ⟨(h.mem p).pxNextFreeBlock, q⟩ := Function.update_self _ _ _

theorem setNext_of_ne (h : PortHeap) {p c : U32} (q : U32) (hc : c ≠ p) :
    (h.setNext p q).mem c = h.mem c := Function.update_of_ne hc _ _

theorem setSize_of_ne (h : PortHeap) {p c : U32} (q : U32) (hc : c ≠ p) :
    (h.setSize p q).mem c = h.mem c := Function.update_of_ne hc _ _

/-- Only headers change, and of those only the ones at `P`. -/
structure Touches (P : U32 → Prop) (h h' : PortHeap) : Prop where
  mem : ∀ c, ¬ P c → h'.mem c = h.mem c
  pxEnd : h'.pxEnd = h.pxEnd
  remaining : h'.xFreeBytesRemaining = h.xFreeBytesRemaining
  minimum : h'.xMinimumEverFreeBytesRemaining = h.xMinimumEverFreeBytesRemaining
  allocations : h'.xNumberOfSuccessfulAllocations = h.xNumberOfSuccessfulAllocations
  frees : h'.xNumberOfSuccessfulFrees = h.xNumberOfSuccessfulFrees

theorem setNext_touches (h : PortHeap) (p q : U32) : Touches (· = p) h (h.setNext p q) :=
  ⟨fun _ hc => setNext_of_ne h q hc, rfl, rfl, rfl, rfl, rfl⟩

theorem setSize_touches (h : PortHeap) (p q : U32) : Touches (· = p) h (h.setSize p q) :=
  ⟨fun _ hc => setSize_of_ne h q hc, rfl, rfl, rfl, rfl, rfl⟩

theorem Touches.trans {P Q : U32 → Prop} {h'' : PortHeap} (h₁ : Touches P h h')
    (h₂ : Touches Q h' h'') : Touches (fun c => P c ∨ Q c) h h'' :=
  ⟨fun c hc => (h₂.mem c fun hq => hc (Or.inr hq)).trans (h₁.mem c fun hp => hc (Or.inl hp)),
    h₂.pxEnd.trans h₁.pxEnd, h₂.remaining.trans h₁.remaining, h₂.minimum.trans h₁.minimum,
    h₂.allocations.trans h₁.allocations, h₂.frees.trans h₁.frees⟩

theorem Touches.mono {P Q : U32 → Prop} (ht : Touches P h h') (hsub : ∀ c, P c → Q c) :
    Touches Q h h' :=
  ⟨fun c hc => ht.mem c fun hp => hc (hsub c hp), ht.pxEnd, ht.remaining, ht.minimum,
    ht.allocations, ht.frees⟩

/-- The headers of the free segments from `a` on, the last of them with the link to `p`. -/
def Chain (m : U32 → BlockLink) : ℕ → List (Seg U32) → ℕ → Prop
  | _, [], _ => True
  | a, .free n :: L, p => m (adr a) = ⟨adr (nextFree (a + n) L p), adr n⟩ ∧ Chain m (a + n) L p
  | a, .used n _ :: L, p => Chain m (a + n) L p

theorem chain_append : Chain m a (L ++ post) p ↔
    Chain m a L (nextFree (a + total L) post p) ∧ Chain m (a + total L) post p := by
  induction L generalizing a with
  | nil => simp [Chain]
  | cons s L ih => cases s <;> simp [Chain, ih, and_assoc, Nat.add_assoc]

/-- Only the headers at the beginnings of segments matter. -/
theorem Chain.congr_at (hc : Chain m a L p)
    (hm : ∀ pre s post, L = pre ++ s :: post → m' (adr (a + total pre)) = m (adr (a + total pre))) :
    Chain m' a L p := by
  induction L generalizing a with
  | nil => trivial
  | cons s L ih =>
    have hrest : ∀ pre t post, L = pre ++ t :: post →
        m' (adr (a + s.len + total pre)) = m (adr (a + s.len + total pre)) := by
      rintro pre t post rfl
      have h := hm (s :: pre) t post rfl
      rwa [total_cons, ← Nat.add_assoc] at h
    cases s with
    | free k =>
      have hhead : m' (adr a) = m (adr a) := hm [] _ L rfl
      exact ⟨hhead.trans hc.1, ih hc.2 hrest⟩
    | used k y => exact ih hc hrest

theorem Chain.congr (hc : Chain m a L p)
    (hm : ∀ c, a ≤ c → c < a + total L → m' (adr c) = m (adr c)) (hpos : ∀ s ∈ L, 0 < s.len) :
    Chain m' a L p := by
  refine hc.congr_at fun pre s post heq => hm _ (by omega) ?_
  have hs := hpos s (by rw [heq]; simp)
  rw [heq, total_append, total_cons]
  omega

/-- The last free segment is the list head, or it is followed by segments in use. -/
theorem lastFree_cases (x a : ℕ) (L : List (Seg U32)) :
    (lastFree x a L = x ∧ ∀ s ∈ L, s.isFree = false) ∨
      ∃ pre k mid, L = pre ++ .free k :: mid ∧ lastFree x a L = a + total pre ∧
        ∀ s ∈ mid, s.isFree = false := by
  induction L using List.reverseRecOn with
  | nil => exact Or.inl ⟨rfl, by simp⟩
  | append_singleton L s ih =>
    cases s with
    | free k => exact Or.inr ⟨L, k, [], rfl, by simp [lastFree], by simp⟩
    | used k y =>
      have hsame : lastFree x a (L ++ [.used k y]) = lastFree x a L := by simp [lastFree]
      rw [hsame]
      rcases ih with ⟨hx, hall⟩ | ⟨pre, k', mid, rfl, heq, hall⟩
      · refine Or.inl ⟨hx, fun s hs => ?_⟩
        rcases List.mem_append.mp hs with hs | hs
        · exact hall s hs
        · rw [List.mem_singleton.mp hs]
          rfl
      · refine Or.inr ⟨pre, k', mid ++ [.used k y], by simp, heq, fun s hs => ?_⟩
        rcases List.mem_append.mp hs with hs | hs
        · exact hall s hs
        · rw [List.mem_singleton.mp hs]
          rfl

theorem lastFree_range (hpos : ∀ s ∈ L, 0 < s.len) :
    lastFree x a L = x ∨ a ≤ lastFree x a L ∧ lastFree x a L < a + total L := by
  rcases lastFree_cases x a L with ⟨hx, -⟩ | ⟨pre, k, mid, rfl, heq, -⟩
  · exact Or.inl hx
  · have hk := hpos (.free k) (by simp)
    simp only [Seg.len_free] at hk
    refine Or.inr ?_
    rw [heq, total_append, total_cons, Seg.len_free]
    omega

/-- Another link in the last free segment leads the chain to another end. -/
theorem Chain.relink (hc : Chain m a L p) (hx : (m (adr x)).pxNextFreeBlock = adr (nextFree a L p))
    (hpos : ∀ s ∈ L, 0 < s.len) (hend : a + total L < 2 ^ 32) (hx32 : x < 2 ^ 32)
    (hout : x < a ∨ a + total L ≤ x)
    (hset : m' (adr (lastFree x a L)) = ⟨adr q, (m (adr (lastFree x a L))).xBlockSize⟩)
    (hsame : ∀ c, c = x ∨ a ≤ c ∧ c < a + total L → c ≠ lastFree x a L → m' (adr c) = m (adr c)) :
    Chain m' a L q ∧ (m' (adr x)).pxNextFreeBlock = adr (nextFree a L q) := by
  induction L generalizing x a with
  | nil =>
    refine ⟨trivial, ?_⟩
    rw [show lastFree x a ([] : List (Seg U32)) = x from rfl] at hset
    rw [hset]
    rfl
  | cons s L ih =>
    have hs := hpos s (by simp)
    have hpos' : ∀ t ∈ L, 0 < t.len := fun t ht => hpos t (List.mem_cons_of_mem _ ht)
    rw [total_cons] at hend hout
    cases s with
    | used k y =>
      simp only [Seg.len_used] at hs hend hout
      refine ih hc hx hpos' (by omega) hx32 (by omega) hset fun c hcase hne => hsame c ?_ hne
      rw [total_cons, Seg.len_used]
      omega
    | free k =>
      simp only [Seg.len_free] at hs hend hout
      have hnext : (m (adr a)).pxNextFreeBlock = adr (nextFree (a + k) L p) := by rw [hc.1]
      have hrest := ih hc.2 hnext hpos' (by omega) (by omega) (by omega) hset fun c hcase hne =>
        hsame c (by rw [total_cons, Seg.len_free]; omega) hne
      have hsize : (m' (adr a)).xBlockSize = adr k := by
        by_cases hlast : lastFree a (a + k) L = a
        · rw [show lastFree x a (.free k :: L) = a from hlast] at hset
          rw [hset, hc.1]
        · rw [hsame a (by rw [total_cons, Seg.len_free]; omega) (Ne.symm hlast), hc.1]
      refine ⟨⟨?_, hrest.1⟩, ?_⟩
      · rw [← hrest.2, ← hsize]
      · have hne : x ≠ lastFree x a (.free k :: L) := by
          show x ≠ lastFree a (a + k) L
          rcases lastFree_range (x := a) (a := a + k) hpos' with heq | hrange <;> omega
        rw [hsame x (Or.inl rfl) hne, hx]
        rfl

theorem insertAfter_eq (hc : Chain h.mem a L p)
    (hx : (h.mem (adr x)).pxNextFreeBlock = adr (nextFree a L p)) (hpos : ∀ s ∈ L, 0 < s.len)
    (hb : a + total L ≤ b) (hp : b ≤ p) (hp32 : p < 2 ^ 32) (hrounds : L.length < rounds) :
    h.insertAfter (adr b) (adr x) rounds = adr (lastFree x a L) := by
  induction L generalizing x a rounds with
  | nil =>
    obtain ⟨rounds, rfl⟩ := Nat.exists_eq_add_of_lt hrounds
    have hnot : ¬ (h.mem (adr x)).pxNextFreeBlock < adr b := by
      rw [hx, nextFree_nil, adr_lt hp32 (by omega)]
      omega
    simp only [insertAfter, if_neg hnot]
    rfl
  | cons s L ih =>
    have hs := hpos s (by simp)
    have hpos' : ∀ t ∈ L, 0 < t.len := fun t ht => hpos t (List.mem_cons_of_mem _ ht)
    rw [total_cons] at hb
    rw [List.length_cons] at hrounds
    cases s with
    | used k y => exact ih hc hx hpos' (by simpa [Nat.add_assoc] using hb) (by omega)
    | free k =>
      simp only [Seg.len_free] at hs hb
      cases rounds with
      | zero => omega
      | succ rounds =>
        have hlt : (h.mem (adr x)).pxNextFreeBlock < adr b := by
          rw [hx, nextFree_free, adr_lt (by omega) (by omega)]
          omega
        have hnext : (h.mem (adr a)).pxNextFreeBlock = adr (nextFree (a + k) L p) := by rw [hc.1]
        rw [insertAfter, if_pos hlt, hx]
        exact ih hc.2 hnext hpos' (by omega) (by omega)

theorem nextFree_range (hpos : ∀ s ∈ L, 0 < s.len) (hp : a + total L ≤ p) :
    a ≤ nextFree a L p ∧ nextFree a L p ≤ p := by
  induction L generalizing a with
  | nil => exact ⟨by simpa [nextFree] using hp, le_rfl⟩
  | cons s L ih =>
    rw [total_cons] at hp
    cases s with
    | free k =>
      simp only [Seg.len_free] at hp
      exact ⟨le_rfl, by show a ≤ p; omega⟩
    | used k y =>
      have hrest := ih (a := a + k) (fun t ht => hpos t (List.mem_cons_of_mem _ ht))
        (by simpa [Nat.add_assoc] using hp)
      exact ⟨by have := hrest.1; show a ≤ nextFree (a + k) L p; omega, hrest.2⟩

/-- The search goes past the segments that are too short. -/
theorem findBlock_append (hc : Chain h.mem a (pre ++ post) p)
    (hsmall : ∀ k, .free k ∈ pre → k < w) (hpos : ∀ s ∈ pre ++ post, 0 < s.len) (ha : 0 < a)
    (hend : a + total (pre ++ post) ≤ p) (hp32 : p < 2 ^ 32) (hw : w < 2 ^ 32) :
    ∃ skipped ≤ pre.length, ∀ rounds,
      h.findBlock (adr w) (adr x) (adr (nextFree a (pre ++ post) p)) (rounds + skipped) =
        h.findBlock (adr w) (adr (lastFree x a pre)) (adr (nextFree (a + total pre) post p)) rounds := by
  induction pre generalizing x a with
  | nil => exact ⟨0, le_rfl, fun rounds => rfl⟩
  | cons s pre ih =>
    have hpos' : ∀ t ∈ pre ++ post, 0 < t.len := fun t ht => hpos t (List.mem_cons_of_mem _ ht)
    have hsmall' : ∀ k, .free k ∈ pre → k < w := fun k hk => hsmall k (List.mem_cons_of_mem _ hk)
    rw [List.cons_append, total_cons] at hend
    cases s with
    | used k y =>
      simp only [Seg.len_used] at hend
      obtain ⟨skipped, hle, hfind⟩ := ih (x := x) (a := a + k) hc hsmall' hpos' (by omega) (by omega)
      refine ⟨skipped, by simp; omega, fun rounds => ?_⟩
      rw [total_cons, Seg.len_used, ← Nat.add_assoc]
      exact hfind rounds
    | free k =>
      simp only [Seg.len_free] at hend
      obtain ⟨skipped, hle, hfind⟩ := ih (x := a) (a := a + k) hc.2 hsmall' hpos' (by omega) (by omega)
      refine ⟨skipped + 1, by simp; omega, fun rounds => ?_⟩
      have hrange := nextFree_range (a := a + k) hpos' (p := p) (by omega)
      have hk := hsmall k (by simp)
      have hgo : (h.mem (adr a)).xBlockSize < adr w ∧ (h.mem (adr a)).pxNextFreeBlock ≠ 0 := by
        rw [hc.1]
        refine ⟨(adr_lt (by omega) hw).mpr hk, fun hzero => ?_⟩
        have hz : nextFree (a + k) (pre ++ post) p = 0 := (adr_inj (by omega) (by omega)).mp hzero
        omega
      have hnext : (h.mem (adr a)).pxNextFreeBlock = adr (nextFree (a + k) (pre ++ post) p) :=
        congrArg BlockLink.pxNextFreeBlock hc.1
      have hround : h.findBlock (adr w) (adr x) (adr a) (rounds + skipped + 1) =
          h.findBlock (adr w) (adr a) (adr (nextFree (a + k) (pre ++ post) p)) (rounds + skipped) := by
        rw [findBlock, if_pos hgo, hnext]
      rw [total_cons, Seg.len_free, ← Nat.add_assoc a, lastFree_free, ← hfind rounds]
      exact hround

theorem joinNext_spec (hc : Chain h.mem (b + n) post e) (hsize : (h.mem (adr b)).xBlockSize = adr n)
    (hn : 0 < n) (hpos : ∀ s ∈ post, 0 < s.len) (he : b + n + total post = e) (he32 : e < 2 ^ 32)
    (hend : h.pxEnd = adr e) :
    Chain (h.joinNext (adr b) (adr (nextFree (b + n) post e))).mem b (consFree n post) e ∧
      Touches (· = adr b) h (h.joinNext (adr b) (adr (nextFree (b + n) post e))) := by
  have hne : ∀ c, b + n ≤ c → c ≤ e → adr c ≠ adr b := by
    intro c hle hlt heq
    have := (adr_inj (by omega) (by omega)).mp heq
    omega
  have hrest : ∀ (h' : PortHeap) (R : List (Seg U32)) (d : ℕ), Touches (· = adr b) h h' →
      b + n ≤ d → d + total R ≤ e → (∀ s ∈ R, 0 < s.len) → Chain h.mem d R e → Chain h'.mem d R e :=
    fun h' R d ht hd hR hposR hchain =>
      hchain.congr (fun c hle hlt => ht.mem _ (hne c (by omega) (by omega))) hposR
  unfold joinNext
  rw [hsize, adr_add]
  cases post with
  | nil =>
    rw [total_nil, Nat.add_zero] at he
    rw [nextFree_nil, if_pos (by rw [he]), if_neg (by rw [hend]; simp)]
    exact ⟨⟨by rw [setNext_self, hsize, hend]; rfl, trivial⟩, setNext_touches _ _ _⟩
  | cons s R =>
    have hs := hpos s (by simp)
    have hposR : ∀ t ∈ R, 0 < t.len := fun t ht => hpos t (List.mem_cons_of_mem _ ht)
    rw [total_cons] at he
    cases s with
    | used m y =>
      simp only [Seg.len_used] at hs he
      have hrange := nextFree_range (a := b + n + m) hposR (p := e) (by omega)
      have hgap : ¬ adr (b + n) = adr (nextFree (b + n) (.used m y :: R) e) := by
        rw [nextFree_used, adr_inj (by omega) (by omega)]
        omega
      rw [if_neg hgap]
      have ht := setNext_touches h (adr b) (adr (nextFree (b + n) (.used m y :: R) e))
      exact ⟨⟨by rw [setNext_self, hsize], hrest _ R (b + n + m) ht (by omega) (by omega) hposR hc⟩, ht⟩
    | free m =>
      simp only [Seg.len_free] at hs he
      have hmore : adr (b + n) ≠ h.pxEnd := by
        rw [hend, Ne, adr_inj (by omega) (by omega)]
        omega
      rw [nextFree_free, if_pos rfl, if_pos hmore]
      have ht := ((setSize_touches h (adr b) (adr n + (h.mem (adr (b + n))).xBlockSize)).trans
        (setNext_touches _ (adr b) ((h.setSize (adr b)
          (adr n + (h.mem (adr (b + n))).xBlockSize)).mem (adr (b + n))).pxNextFreeBlock)).mono
        (Q := (· = adr b)) fun c hc => hc.elim id id
      refine ⟨⟨?_, hrest _ R (b + (n + m)) ht (by omega) (by omega) hposR
        (by rw [← Nat.add_assoc]; exact hc.2)⟩, ht⟩
      rw [setNext_self, setSize_self, setSize_of_ne _ _ (hne (b + n) le_rfl (by omega)), hc.1, adr_add,
        Nat.add_assoc]

structure Loose (g : HeapPlace) (h : PortHeap) (x a : ℕ) (pre : List (Seg U32)) (b n : ℕ)
    (post : List (Seg U32)) (e : ℕ) : Prop where
  head : h.mem (adr x) = ⟨adr (nextFree a pre (nextFree (b + n) post e)), 0⟩
  before : Chain h.mem a pre (nextFree (b + n) post e)
  size : (h.mem (adr b)).xBlockSize = adr n
  after : Chain h.mem (b + n) post e
  pxEnd : h.pxEnd = adr e
  xStart : g.xStart = adr x
  begins : a + total pre = b
  ends : b + n + total post = e
  pos : 0 < n
  posBefore : ∀ s ∈ pre, 0 < s.len
  posAfter : ∀ s ∈ post, 0 < s.len
  sepBefore : Separated pre
  sepAfter : Separated post
  below : e < 2 ^ 32
  outside : x < 2 ^ 32 ∧ (x < a ∨ e ≤ x)
  count : pre.length < heapRounds

theorem Loose.insertAfter (hl : Loose g h x a pre b n post e) :
    h.insertAfter (adr b) g.xStart heapRounds = adr (lastFree x a pre) := by
  have hrange := nextFree_range hl.posAfter (a := b + n) (p := e) hl.ends.le
  have hbelow := hl.below
  rw [hl.xStart]
  exact insertAfter_eq hl.before (by rw [hl.head]) hl.posBefore hl.begins.le (by omega) (by omega) hl.count

/-- Nothing free lies before the block: it is linked in behind the last free segment. -/
theorem Loose.link (hl : Loose g h x a pre b n post e)
    (hlast : ∀ s ∈ pre.getLast?, s.isFree = false) (hne : lastFree x a pre ≠ b)
    (h' : PortHeap) (heq : h' = (h.joinNext (adr b) (adr (nextFree (b + n) post e))).setNext
      (adr (lastFree x a pre)) (adr b)) :
    Chain h'.mem a (coalesce (pre ++ .free n :: post)) e ∧
      h'.mem (adr x) = ⟨adr (nextFree a (coalesce (pre ++ .free n :: post)) e), 0⟩ ∧
      Touches (fun c => c = adr (lastFree x a pre) ∨ c = adr b) h h' := by
  obtain ⟨hjoin, ht⟩ := joinNext_spec hl.after hl.size hl.pos hl.posAfter hl.ends hl.below hl.pxEnd
  set h₁ := h.joinNext (adr b) (adr (nextFree (b + n) post e)) with hh₁
  set y := lastFree x a pre with hy
  have hpos := hl.pos
  have hbelow := hl.below
  have hends := hl.ends
  have hbegins := hl.begins
  obtain ⟨hx32, hxout⟩ := hl.outside
  have hy32 : y < 2 ^ 32 := by
    rcases lastFree_range (x := x) (a := a) hl.posBefore with hx | hx <;> omega
  have hyb : adr y ≠ adr b := fun heq' => hne ((adr_inj hy32 (by omega)).mp heq')
  have hybelow : y = x ∨ y < b := by
    rcases lastFree_range (x := x) (a := a) hl.posBefore with hx | hx <;> omega
  have ht' : Touches (fun c => c = adr y ∨ c = adr b) h h' := by
    rw [heq]
    exact (ht.trans (setNext_touches h₁ (adr y) (adr b))).mono fun c hc => hc.symm
  have hmem : ∀ c, c < 2 ^ 32 → c ≠ y → c ≠ b → h'.mem (adr c) = h.mem (adr c) := by
    intro c hc hcy hcb
    refine ht'.mem _ ?_
    rw [adr_inj hc hy32, adr_inj hc (by omega)]
    omega
  have hset : h'.mem (adr y) = ⟨adr b, (h.mem (adr y)).xBlockSize⟩ := by
    rw [heq, setNext_self, ht.mem _ hyb]
  have hbefore := Chain.relink hl.before (by rw [hl.head]) hl.posBefore (by omega) hx32 (by omega)
    hset fun c hc hcy => hmem c (by omega) hcy (by omega)
  have hafter : Chain h'.mem b (consFree n post) e := by
    refine hjoin.congr (fun c hle hlt => ?_) fun s hs => ?_
    · rw [consFree_total] at hlt
      rw [heq, setNext_of_ne]
      rw [Ne, adr_inj (by omega) hy32]
      omega
    · exact consFree_forall (P := (0 < ·)) (fun _ _ hm _ => Nat.add_pos_left hm _) hpos hl.posAfter s hs
  rw [coalesce_insert hl.sepBefore hl.sepAfter hlast, chain_append, nextFree_append, hbegins,
    nextFree_consFree]
  refine ⟨⟨hbefore.1, hafter⟩, ?_, ht'⟩
  have hsize : (h'.mem (adr x)).xBlockSize = 0 := by
    by_cases hxy : x = y
    · rw [hxy, hset, ← hxy, hl.head]
    · rw [hmem x hx32 hxy (by omega), hl.head]
  rw [← hbefore.2, ← hsize]

theorem insert_apart {y p : U32} (hy : h.insertAfter p g.xStart heapRounds = y)
    (hnot : ¬ y + (h.mem y).xBlockSize = p) (hne : y ≠ p) :
    h.prvInsertBlockIntoFreeList g p = (h.joinNext p (h.mem y).pxNextFreeBlock).setNext y p := by
  simp only [prvInsertBlockIntoFreeList, hy, if_neg hnot, if_pos hne]

theorem insert_joined {y p : U32} (hy : h.insertAfter p g.xStart heapRounds = y)
    (hadj : y + (h.mem y).xBlockSize = p) :
    h.prvInsertBlockIntoFreeList g p =
      (h.setSize y ((h.mem y).xBlockSize + (h.mem p).xBlockSize)).joinNext y
        (h.mem y).pxNextFreeBlock := by
  simp only [prvInsertBlockIntoFreeList, hy, if_pos hadj, ne_eq, not_true_eq_false, if_false,
    setSize_self]

/-- The block before is free: it grows, and the link to it stays. -/
theorem Loose.grow (hl : Loose g h x a pre b n post e) {pre₁ : List (Seg U32)} {k : ℕ}
    (hpre : pre = pre₁ ++ [.free k]) {h' : PortHeap}
    (heq : h' = (h.setSize (adr (a + total pre₁)) (adr (k + n))).joinNext (adr (a + total pre₁))
      (adr (nextFree (b + n) post e))) :
    Chain h'.mem a (coalesce (pre ++ .free n :: post)) e ∧
      h'.mem (adr x) = ⟨adr (nextFree a (coalesce (pre ++ .free n :: post)) e), 0⟩ ∧
      Touches (· = adr (a + total pre₁)) h h' := by
  have hpos := hl.pos
  have hbelow := hl.below
  have hends := hl.ends
  have hbegins := hl.begins
  obtain ⟨hx32, hxout⟩ := hl.outside
  have hchain := hl.before
  have hposk := hl.posBefore (.free k) (by rw [hpre]; simp)
  rw [hpre, chain_append] at hchain
  rw [hpre, total_append, total_cons, total_nil] at hbegins
  simp only [Seg.len_free] at hposk hbegins
  set c := a + total pre₁ with hc
  have hck : c + (k + n) = b + n := by omega
  have hsep := separated_append_free (L := pre₁) (R := []) (by rw [← hpre]; exact hl.sepBefore)
  have hcalc : coalesce (pre ++ .free n :: post) = pre₁ ++ consFree (k + n) post := by
    rw [hpre, List.append_assoc, List.singleton_append, coalesce_join,
      coalesce_insert hsep.1 hl.sepAfter hsep.2.1]
  have hts := setSize_touches h (adr c) (adr (k + n))
  have hafter : Chain (h.setSize (adr c) (adr (k + n))).mem (c + (k + n)) post e := by
    rw [hck]
    refine hl.after.congr (fun d hle hlt => hts.mem _ ?_) hl.posAfter
    rw [adr_inj (by omega) (by omega)]
    omega
  have hjoin := joinNext_spec hafter (by rw [setSize_self]) (by omega) hl.posAfter (by omega)
    hl.below hl.pxEnd
  rw [hck, ← heq] at hjoin
  have htj := (hts.trans hjoin.2).mono (Q := (· = adr c)) fun d hd => hd.elim id id
  rw [hcalc, chain_append, nextFree_append, nextFree_consFree]
  refine ⟨⟨?_, hjoin.1⟩, ?_, htj⟩
  · refine Chain.congr hchain.1 (fun d hle hlt => htj.mem _ ?_) fun s hs =>
      hl.posBefore s (by rw [hpre]; exact List.mem_append_left _ hs)
    rw [adr_inj (by omega) (by omega)]
    omega
  · rw [htj.mem _ (by rw [adr_inj hx32 (by omega)]; omega), hl.head, hpre, nextFree_append]
    rfl

/-- The block goes to its place in the free list and is joined with what is free beside it. -/
theorem Loose.insert (hl : Loose g h x a pre b n post e) :
    Chain (h.prvInsertBlockIntoFreeList g (adr b)).mem a (coalesce (pre ++ .free n :: post)) e ∧
      (h.prvInsertBlockIntoFreeList g (adr b)).mem (adr x) =
        ⟨adr (nextFree a (coalesce (pre ++ .free n :: post)) e), 0⟩ ∧
      Touches (fun c => c = adr (lastFree x a pre) ∨ c = adr b) h
        (h.prvInsertBlockIntoFreeList g (adr b)) := by
  have hbelow := hl.below
  have hends := hl.ends
  have hpos := hl.pos
  obtain ⟨hx32, hxout⟩ := hl.outside
  rcases lastFree_cases x a pre with ⟨hy, hall⟩ | ⟨pre₁, k, mid, hpre, hy, hmid⟩
  · have hbegins := hl.begins
    have hne : adr (lastFree x a pre) ≠ adr b := by
      rw [hy, Ne, adr_inj hx32 (by omega)]
      omega
    have hnot : ¬ adr (lastFree x a pre) + (h.mem (adr (lastFree x a pre))).xBlockSize = adr b := by
      rw [hy, hl.head]
      show ¬ adr x + 0#32 = adr b
      rwa [BitVec.add_zero, ← hy]
    have hnext : (h.mem (adr (lastFree x a pre))).pxNextFreeBlock = adr (nextFree (b + n) post e) := by
      rw [hy, hl.head, nextFree_of_used hall]
    refine hl.link (fun s hs => hall s (List.mem_of_getLast? hs)) (fun heq => hne (by rw [heq])) _ ?_
    rw [insert_apart hl.insertAfter hnot hne, hnext]
  · have hchain := hl.before
    have hposk := hl.posBefore (.free k) (by rw [hpre]; simp)
    rw [hpre, chain_append] at hchain
    simp only [Seg.len_free] at hposk
    have hbegins : a + (total pre₁ + (k + total mid)) = b := by
      rw [← hl.begins, hpre]
      simp
    have hnode : h.mem (adr (lastFree x a pre)) = ⟨adr (nextFree (b + n) post e), adr k⟩ := by
      rw [hy, hchain.2.1, nextFree_of_used hmid]
    by_cases hadj : mid = []
    · subst hadj
      rw [total_nil] at hbegins
      have hsum : adr (lastFree x a pre) + (h.mem (adr (lastFree x a pre))).xBlockSize = adr b := by
        rw [hnode, hy, adr_add, show a + total pre₁ + k = b by omega]
      obtain ⟨hc, hhead, ht⟩ := hl.grow hpre (insert_joined hl.insertAfter hsum |>.trans (by
        rw [hnode, hy, hl.size, adr_add]))
      exact ⟨hc, hhead, ht.mono fun c hc => Or.inl (by rw [hy, hc])⟩
    · have hmidpos : 0 < total mid := by
        obtain ⟨s, mid, rfl⟩ := List.exists_cons_of_ne_nil hadj
        have hs := hl.posBefore s (by rw [hpre]; simp)
        rw [total_cons]
        omega
      have hnot : ¬ adr (lastFree x a pre) + (h.mem (adr (lastFree x a pre))).xBlockSize = adr b := by
        rw [hnode, hy, adr_add, adr_inj (by omega) (by omega)]
        omega
      have hne : adr (lastFree x a pre) ≠ adr b := by
        rw [hy, Ne, adr_inj (by omega) (by omega)]
        omega
      have hlast : ∀ s ∈ pre.getLast?, s.isFree = false := by
        intro s hs
        rw [hpre, List.getLast?_append_of_ne_nil _ (by simp),
          List.getLast?_cons_of_ne_nil hadj] at hs
        exact hmid s (List.mem_of_getLast? hs)
      refine hl.link hlast (fun heq => hne (by rw [heq])) _ ?_
      rw [insert_apart hl.insertAfter hnot hne, hnode]

end PortHeap

end Stm32F407
