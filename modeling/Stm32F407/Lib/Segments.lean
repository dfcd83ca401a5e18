import Stm32F407.Lib.Tiling

/-! A stretch of memory cut into segments that lie one behind the other, some of them in
use. Segments that are freed are joined with their free neighbours, so that the free
segments are the gaps between those in use and nothing else. -/

namespace Lib

/-- A segment by its length, with what is known of it while it is in use. -/
inductive Seg (α : Type*) where
  | free (len : ℕ)
  | used (len : ℕ) (a : α)

namespace Seg

variable {α : Type*}

def len : Seg α → ℕ
  | free n => n
  | used n _ => n

@[simp] theorem len_free (n : ℕ) : (free n : Seg α).len = n := rfl
@[simp] theorem len_used (n : ℕ) (x : α) : (used n x).len = n := rfl

def isFree : Seg α → Bool
  | free _ => true
  | used _ _ => false

@[simp] theorem isFree_free (n : ℕ) : (free n : Seg α).isFree = true := rfl
@[simp] theorem isFree_used (n : ℕ) (x : α) : (used n x).isFree = false := rfl

end Seg

namespace Segs

open Seg

variable {α : Type*} {L R : List (Seg α)} {s : Seg α} {a b m n p w : ℕ} {x : α} {P : ℕ → Prop}

def total (L : List (Seg α)) : ℕ := (L.map Seg.len).sum

@[simp] theorem total_nil : total ([] : List (Seg α)) = 0 := rfl
@[simp] theorem total_cons (s : Seg α) (L : List (Seg α)) : total (s :: L) = s.len + total L := rfl

@[simp] theorem total_append (L R : List (Seg α)) : total (L ++ R) = total L + total R := by
  simp [total]

def freeTotal : List (Seg α) → ℕ
  | [] => 0
  | free n :: L => n + freeTotal L
  | used _ _ :: L => freeTotal L

@[simp] theorem freeTotal_append (L R : List (Seg α)) :
    freeTotal (L ++ R) = freeTotal L + freeTotal R := by
  induction L with
  | nil => simp [freeTotal]
  | cons s L ih => cases s <;> simp [freeTotal, ih, Nat.add_assoc]

/-- Where the first free segment begins, or `p` if there is none. -/
def nextFree : ℕ → List (Seg α) → ℕ → ℕ
  | _, [], p => p
  | a, free _ :: _, _ => a
  | a, used n _ :: L, p => nextFree (a + n) L p

@[simp] theorem nextFree_nil (a p : ℕ) : nextFree a ([] : List (Seg α)) p = p := rfl

@[simp] theorem nextFree_free (a n : ℕ) (L : List (Seg α)) (p : ℕ) :
    nextFree a (free n :: L) p = a := rfl

@[simp] theorem nextFree_used (a n : ℕ) (x : α) (L : List (Seg α)) (p : ℕ) :
    nextFree a (used n x :: L) p = nextFree (a + n) L p := rfl

@[simp] theorem nextFree_append (a : ℕ) (L R : List (Seg α)) (p : ℕ) :
    nextFree a (L ++ R) p = nextFree a L (nextFree (a + total L) R p) := by
  induction L generalizing a with
  | nil => rfl
  | cons s L ih => cases s <;> simp [nextFree, ih, Nat.add_assoc]

/-- Where the last free segment begins, or `p` if there is none. -/
def lastFree : ℕ → ℕ → List (Seg α) → ℕ
  | p, _, [] => p
  | _, a, free n :: L => lastFree a (a + n) L
  | p, a, used n _ :: L => lastFree p (a + n) L

@[simp] theorem lastFree_nil (p a : ℕ) : lastFree p a ([] : List (Seg α)) = p := rfl

@[simp] theorem lastFree_free (p a n : ℕ) (L : List (Seg α)) :
    lastFree p a (free n :: L) = lastFree a (a + n) L := rfl

@[simp] theorem lastFree_used (p a n : ℕ) (x : α) (L : List (Seg α)) :
    lastFree p a (used n x :: L) = lastFree p (a + n) L := rfl

@[simp] theorem lastFree_append (p a : ℕ) (L R : List (Seg α)) :
    lastFree p a (L ++ R) = lastFree (lastFree p a L) (a + total L) R := by
  induction L generalizing p a with
  | nil => rfl
  | cons s L ih => cases s <;> simp [lastFree, ih, Nat.add_assoc]

/-- The segments in use, where they lie when the first segment begins at `a`. -/
def usedAt : ℕ → List (Seg α) → List (Block × α)
  | _, [] => []
  | a, free n :: L => usedAt (a + n) L
  | a, used n x :: L => (⟨a, n⟩, x) :: usedAt (a + n) L

@[simp] theorem usedAt_append (a : ℕ) (L R : List (Seg α)) :
    usedAt a (L ++ R) = usedAt a L ++ usedAt (a + total L) R := by
  induction L generalizing a with
  | nil => rfl
  | cons s L ih => cases s <;> simp [usedAt, ih, Nat.add_assoc]

theorem usedAt_mem {u : Block × α} (h : u ∈ usedAt a L) :
    ∃ pre post, L = pre ++ used u.1.len u.2 :: post ∧ u.1.start = a + total pre := by
  induction L generalizing a with
  | nil => simp [usedAt] at h
  | cons s L ih =>
    cases s with
    | free n =>
      obtain ⟨pre, post, rfl, hstart⟩ := ih h
      exact ⟨free n :: pre, post, rfl, by simp [hstart, Nat.add_assoc]⟩
    | used n x =>
      rcases List.mem_cons.mp h with rfl | h
      · exact ⟨[], L, rfl, rfl⟩
      · obtain ⟨pre, post, rfl, hstart⟩ := ih h
        exact ⟨used n x :: pre, post, rfl, by simp [hstart, Nat.add_assoc]⟩

theorem usedAt_start_le {u : Block × α} (h : u ∈ usedAt a L) :
    a ≤ u.1.start ∧ u.1.start + u.1.len ≤ a + total L := by
  obtain ⟨pre, post, rfl, hstart⟩ := usedAt_mem h
  rw [total_append, total_cons, len_used]
  omega

theorem usedAt_apart (a : ℕ) (L : List (Seg α)) :
    (usedAt a L).Pairwise fun u v => u.1.start + u.1.len ≤ v.1.start := by
  induction L generalizing a with
  | nil => exact List.Pairwise.nil
  | cons s L ih =>
    cases s with
    | free n => exact ih _
    | used n x => exact List.Pairwise.cons (fun u hu => (usedAt_start_le hu).1) (ih _)

/-- What is not free is in use. -/
theorem freeTotal_add_used (a : ℕ) (L : List (Seg α)) :
    freeTotal L + ((usedAt a L).map fun u => u.1.len).sum = total L := by
  induction L generalizing a with
  | nil => rfl
  | cons s L ih =>
    have hrest := ih (a + s.len)
    cases s with
    | free n =>
      show n + freeTotal L + _ = n + total L
      rw [Nat.add_assoc]
      exact congrArg (n + ·) hrest
    | used n x =>
      simp only [len_used] at hrest
      simp only [freeTotal, usedAt, List.map_cons, List.sum_cons, total_cons, len_used]
      omega

def consFree (n : ℕ) : List (Seg α) → List (Seg α)
  | free m :: L => free (n + m) :: L
  | L => free n :: L

/-- All free neighbours joined. -/
def coalesce : List (Seg α) → List (Seg α)
  | [] => []
  | free n :: L => consFree n (coalesce L)
  | used n x :: L => used n x :: coalesce L

/-- No free segment lies beside another one. -/
def Separated : List (Seg α) → Prop
  | [] => True
  | free _ :: L => (∀ s ∈ L.head?, s.isFree = false) ∧ Separated L
  | used _ _ :: L => Separated L

theorem consFree_of_used (h : ∀ s ∈ L.head?, s.isFree = false) (n : ℕ) :
    consFree n L = free n :: L := by
  match L with
  | [] => rfl
  | used _ _ :: _ => rfl
  | free m :: _ => cases h (free m) rfl

theorem consFree_separated (h : Separated L) (n : ℕ) : Separated (consFree n L) := by
  match L with
  | [] => exact ⟨by simp, h⟩
  | used _ _ :: _ => exact ⟨by simp, h⟩
  | free _ :: _ => exact h

theorem coalesce_separated (L : List (Seg α)) : Separated (coalesce L) := by
  induction L with
  | nil => trivial
  | cons s L ih =>
    cases s with
    | free n => exact consFree_separated ih n
    | used n x => exact ih

theorem coalesce_of_separated (h : Separated L) : coalesce L = L := by
  induction L with
  | nil => rfl
  | cons s L ih =>
    cases s with
    | free n => rw [coalesce, ih h.2, consFree_of_used h.1]
    | used n x => rw [coalesce, ih h]

theorem consFree_total (n : ℕ) (L : List (Seg α)) : total (consFree n L) = n + total L := by
  match L with
  | [] => rfl
  | used _ _ :: _ => rfl
  | free _ :: _ => exact Nat.add_assoc _ _ _

@[simp] theorem coalesce_total (L : List (Seg α)) : total (coalesce L) = total L := by
  induction L with
  | nil => rfl
  | cons s L ih => cases s <;> simp [coalesce, consFree_total, ih]

theorem consFree_freeTotal (n : ℕ) (L : List (Seg α)) : freeTotal (consFree n L) = n + freeTotal L := by
  match L with
  | [] => rfl
  | used _ _ :: _ => rfl
  | free _ :: _ => exact Nat.add_assoc _ _ _

@[simp] theorem coalesce_freeTotal (L : List (Seg α)) : freeTotal (coalesce L) = freeTotal L := by
  induction L with
  | nil => rfl
  | cons s L ih => cases s <;> simp [coalesce, freeTotal, consFree_freeTotal, ih]

theorem consFree_usedAt (a n : ℕ) (L : List (Seg α)) : usedAt a (consFree n L) = usedAt (a + n) L := by
  match L with
  | [] => rfl
  | used _ _ :: _ => rfl
  | free m :: L => exact congrArg (usedAt · L) (Nat.add_assoc a n m).symm

theorem nextFree_consFree (a n : ℕ) (L : List (Seg α)) (p : ℕ) : nextFree a (consFree n L) p = a := by
  match L with
  | [] => rfl
  | used _ _ :: _ => rfl
  | free _ :: _ => rfl

/-- What holds of all lengths and of their sums holds after joining. -/
theorem consFree_forall (hadd : ∀ m n, P m → P n → P (m + n)) (hn : P n) (h : ∀ s ∈ L, P s.len) :
    ∀ s ∈ consFree n L, P s.len := by
  intro s hs
  match L with
  | [] =>
    rw [List.mem_singleton.mp hs]
    exact hn
  | used _ _ :: _ =>
    rcases List.mem_cons.mp hs with rfl | hs
    · exact hn
    · exact h s hs
  | free m :: L =>
    rcases List.mem_cons.mp hs with rfl | hs
    · exact hadd n m hn (h (free m) (by simp))
    · exact h s (List.mem_cons_of_mem _ hs)

theorem coalesce_forall (hadd : ∀ m n, P m → P n → P (m + n)) (h : ∀ s ∈ L, P s.len) :
    ∀ s ∈ coalesce L, P s.len := by
  induction L with
  | nil => exact h
  | cons s L ih =>
    have hrest := ih fun t ht => h t (List.mem_cons_of_mem s ht)
    cases s with
    | free n => exact consFree_forall hadd (h (free n) (by simp)) hrest
    | used n x =>
      intro t ht
      rcases List.mem_cons.mp ht with rfl | ht
      · exact h (used n x) (by simp)
      · exact hrest t ht

theorem nextFree_of_used (h : ∀ s ∈ L, s.isFree = false) (a p : ℕ) : nextFree a L p = p := by
  induction L generalizing a with
  | nil => rfl
  | cons s L ih =>
    cases s with
    | free n => cases h (free n) (by simp)
    | used n x => exact ih (fun t ht => h t (List.mem_cons_of_mem _ ht)) _

@[simp] theorem coalesce_usedAt (a : ℕ) (L : List (Seg α)) : usedAt a (coalesce L) = usedAt a L := by
  induction L generalizing a with
  | nil => rfl
  | cons s L ih => cases s <;> simp [coalesce, usedAt, consFree_usedAt, ih]

theorem coalesce_join (L R : List (Seg α)) (m n : ℕ) :
    coalesce (L ++ free m :: free n :: R) = coalesce (L ++ free (m + n) :: R) := by
  induction L with
  | nil =>
    simp only [List.nil_append, coalesce]
    match coalesce R with
    | [] => rfl
    | used _ _ :: _ => rfl
    | free _ :: _ => simp [consFree, Nat.add_assoc]
  | cons s L ih => cases s <;> simp [coalesce, ih]

/-- Freeing a segment changes nothing before it, unless that is free itself. -/
theorem coalesce_insert (hL : Separated L) (hR : Separated R)
    (hlast : ∀ s ∈ L.getLast?, s.isFree = false) (n : ℕ) :
    coalesce (L ++ free n :: R) = L ++ consFree n R := by
  induction L with
  | nil => rw [List.nil_append, coalesce, coalesce_of_separated hR, List.nil_append]
  | cons s L ih =>
    cases L with
    | nil =>
      cases s with
      | free m => cases hlast (free m) rfl
      | used m x => simp [coalesce, coalesce_of_separated hR]
    | cons t L =>
      have hlast' : ∀ s ∈ (t :: L).getLast?, s.isFree = false := by
        intro u hu
        exact hlast u (by rwa [List.getLast?_cons_cons])
      cases s with
      | free m =>
        have hrest := ih hL.2 hlast'
        rw [List.cons_append, coalesce, hrest, consFree_of_used (by simpa using hL.1)]
        rfl
      | used m x =>
        rw [List.cons_append, coalesce, ih hL hlast']
        rfl

/-- A free segment is long enough exactly when there is room somewhere between the
segments in use. -/
theorem exists_gap_iff (h : Separated L) (hpos : ∀ s ∈ L, 0 < s.len) (hw : 0 < w) (a : ℕ) :
    (∃ n, free n ∈ L ∧ w ≤ n) ↔
      ∃ b, a ≤ b ∧ b + w ≤ a + total L ∧ ∀ u ∈ usedAt a L, (⟨b, w⟩ : Block).Apart u.1 := by
  constructor
  · rintro ⟨n, hmem, hle⟩
    obtain ⟨pre, post, rfl⟩ := List.append_of_mem hmem
    refine ⟨a + total pre, by omega, by simp; omega, fun u hu => ?_⟩
    rw [usedAt_append, List.mem_append] at hu
    rcases hu with hu | hu
    · exact Or.inr (usedAt_start_le hu).2
    · refine Or.inl (le_trans ?_ (usedAt_start_le (show u ∈ usedAt (a + total pre + n) post from hu)).1)
      simpa [Nat.add_assoc] using hle
  · rintro ⟨b, hle, hend, hapart⟩
    induction L generalizing a with
    | nil =>
      rw [total_nil] at hend
      omega
    | cons s L ih =>
      have htail : a + s.len ≤ b → (∀ u ∈ usedAt (a + s.len) L, (⟨b, w⟩ : Block).Apart u.1) →
          Separated L → ∃ n, free n ∈ s :: L ∧ w ≤ n := by
        intro hstart hrest hsep
        obtain ⟨n, hmem, hn⟩ := ih hsep (fun t ht => hpos t (List.mem_cons_of_mem s ht)) (a + s.len)
          hstart (by rw [total_cons] at hend; omega) hrest
        exact ⟨n, List.mem_cons_of_mem s hmem, hn⟩
      cases s with
      | used n x =>
        have hn := hpos (used n x) (by simp)
        have hhead := hapart (⟨a, n⟩, x) (by simp [usedAt])
        unfold Block.Apart at hhead
        simp only [len_used] at hn hhead
        exact htail (show a + n ≤ b by omega) (fun u hu => hapart u (List.mem_cons_of_mem _ hu)) h
      | free n =>
        by_cases hstart : a + n ≤ b
        · exact htail hstart hapart h.2
        -- the gap ends with the segment, for the next one is in use
        · refine ⟨n, by simp, ?_⟩
          cases L with
          | nil =>
            simp only [total_cons, len_free, total_nil] at hend
            omega
          | cons t L =>
            cases t with
            | free m => cases h.1 (free m) rfl
            | used m x =>
              have hm := hpos (used m x) (by simp)
              have hhead := hapart (⟨a + n, m⟩, x) (by simp [usedAt])
              unfold Block.Apart at hhead
              simp only [len_used] at hm hhead
              omega

theorem usedAt_nil_free (h : Separated L) (hu : usedAt a L = []) : L = [] ∨ ∃ n, L = [free n] := by
  match L with
  | [] => exact Or.inl rfl
  | used _ _ :: _ => simp [usedAt] at hu
  | [free n] => exact Or.inr ⟨n, rfl⟩
  | free _ :: used _ _ :: _ => simp [usedAt] at hu
  | free _ :: free m :: _ => cases h.1 (free m) rfl

/-- The segments in use determine the free ones. -/
theorem eq_of_usedAt (hL : Separated L) (hR : Separated R) (hposL : ∀ s ∈ L, 0 < s.len)
    (hposR : ∀ s ∈ R, 0 < s.len) (htotal : total L = total R) (hused : usedAt a L = usedAt a R) :
    L = R := by
  induction L generalizing R a with
  | nil =>
    cases R with
    | nil => rfl
    | cons s R =>
      have hs := hposR s (by simp)
      simp only [total_nil, total_cons] at htotal
      omega
  | cons s L ih =>
    cases R with
    | nil =>
      have hs := hposL s (by simp)
      simp only [total_nil, total_cons] at htotal
      omega
    | cons t R =>
      have hs := hposL s (by simp)
      have ht := hposR t (by simp)
      have hpos : ∀ u ∈ L, 0 < u.len := fun u hu => hposL u (List.mem_cons_of_mem s hu)
      have hpos' : ∀ u ∈ R, 0 < u.len := fun u hu => hposR u (List.mem_cons_of_mem t hu)
      simp only [total_cons] at htotal
      cases s with
      | used n x =>
        cases t with
        | used n' x' =>
          simp only [usedAt, List.cons.injEq, Prod.mk.injEq, Block.mk.injEq, true_and] at hused
          obtain ⟨⟨rfl, rfl⟩, hrest⟩ := hused
          rw [ih (R := R) hL hR hpos hpos' (by simpa using htotal) hrest]
        | free n' =>
          have hmem : (⟨a, n⟩, x) ∈ usedAt (a + n') R := by
            have hhead : (⟨a, n⟩, x) ∈ usedAt a (used n x :: L) := by simp [usedAt]
            rwa [hused] at hhead
          have hstart := (usedAt_start_le hmem).1
          simp only [len_free] at ht hstart
          omega
      | free n =>
        cases t with
        | used n' x' =>
          have hmem : (⟨a, n'⟩, x') ∈ usedAt (a + n) L := by
            have hhead : (⟨a, n'⟩, x') ∈ usedAt a (used n' x' :: R) := by simp [usedAt]
            rwa [← hused] at hhead
          have hstart := (usedAt_start_le hmem).1
          simp only [len_free] at hs hstart
          omega
        | free n' =>
          have hlen : n = n' := by
            cases L with
            | nil =>
              rcases usedAt_nil_free hR (by rw [← hused]; rfl) with hnil | ⟨k, hk⟩
              · cases hnil
              · simp only [List.cons.injEq] at hk
                obtain ⟨-, rfl⟩ := hk
                simpa using htotal
            | cons u L =>
              cases u with
              | free m => cases hL.1 (free m) rfl
              | used m y =>
                cases R with
                | nil => simp [usedAt] at hused
                | cons v R =>
                  cases v with
                  | free m' => cases hR.1 (free m') rfl
                  | used m' y' =>
                    simp only [usedAt, List.cons.injEq, Prod.mk.injEq, Block.mk.injEq] at hused
                    omega
          subst hlen
          rw [ih hL.2 hR.2 hpos hpos' (by simpa using htotal) hused]

/-- The first free segment that is long enough lies between `pre` and `post`. -/
structure FirstFit (w : ℕ) (L pre : List (Seg α)) (n : ℕ) (post : List (Seg α)) : Prop where
  eq : L = pre ++ free n :: post
  fits : w ≤ n
  first : ∀ m, free m ∈ pre → m < w

theorem exists_firstFit (h : free n ∈ L) (hw : w ≤ n) :
    ∃ pre m post, FirstFit w L pre m post := by
  induction L with
  | nil => cases h
  | cons s L ih =>
    by_cases hs : ∃ m, s = free m ∧ w ≤ m
    · obtain ⟨m, rfl, hm⟩ := hs
      exact ⟨[], m, L, rfl, hm, by simp⟩
    · have hmem : free n ∈ L := by
        rcases List.mem_cons.mp h with rfl | hmem
        · exact (hs ⟨n, rfl, hw⟩).elim
        · exact hmem
      obtain ⟨pre, m, post, hfit⟩ := ih hmem
      refine ⟨s :: pre, m, post, by rw [hfit.eq, List.cons_append], hfit.fits, fun k hk => ?_⟩
      rcases List.mem_cons.mp hk with rfl | hk
      · exact not_le.mp fun hle => hs ⟨k, rfl, hle⟩
      · exact hfit.first k hk

theorem separated_append_used (L R : List (Seg α)) (n : ℕ) (x : α) :
    Separated (L ++ used n x :: R) ↔ Separated L ∧ Separated R := by
  induction L with
  | nil => simp [Separated]
  | cons s L ih =>
    cases s with
    | free m => cases L <;> simp_all [Separated, and_assoc]
    | used m y => simpa [Separated] using ih

theorem separated_append_free (h : Separated (L ++ free n :: R)) :
    Separated L ∧ (∀ s ∈ L.getLast?, s.isFree = false) ∧ Separated (free n :: R) := by
  induction L with
  | nil => exact ⟨trivial, by simp, h⟩
  | cons s L ih =>
    cases s with
    | free m =>
      cases L with
      | nil => cases h.1 (free n) rfl
      | cons t L =>
        obtain ⟨hL, hlast, hR⟩ := ih h.2
        exact ⟨⟨by simpa using h.1, hL⟩, by simpa using hlast, hR⟩
    | used m y =>
      obtain ⟨hL, hlast, hR⟩ := ih h
      refine ⟨hL, fun t ht => ?_, hR⟩
      cases L with
      | nil =>
        simp only [List.getLast?_singleton, Option.mem_some_iff] at ht
        rw [← ht, isFree_used]
      | cons u L => exact hlast t (by simpa using ht)

end Segs

end Lib
