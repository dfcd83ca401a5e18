import Stm32F407.Lib.Circular
import Stm32F407.Spec.RtosList

/-! What the functions of `list.c` do to the rings: every list is a ring of its end
marker and its items, read from the node behind `pxIndex` round to `pxIndex`. Insertion
and removal are insertion into and removal from the list of nodes, `vListInsert` keeps
it sorted, and lists do not touch each other. -/

namespace Stm32F407

open Lib

variable {κ ι : Type}

structure Lists.Holds (m : Lists κ ι) (L : κ → List (ListNode κ ι)) : Prop where
  ring : ∀ k, IsRing m.pxNext m.pxPrevious (L k)
  nodup : ∀ k, (L k).Nodup
  index : ∀ k, (L k).getLast? = some (m.pxIndex k)
  marker : ∀ k k', .xListEnd k' ∈ L k ↔ k' = k
  container : ∀ i k, .item i ∈ L k ↔ m.pxContainer i = some k
  count : ∀ k, (L k).length = m.uxNumberOfItems k + 1
  last : ∀ k, m.xItemValue (.xListEnd k) = portMAX_DELAY

namespace Lists.Holds

variable {m : Lists κ ι} {L : κ → List (ListNode κ ι)} {k k' : κ} {i : ι} {n x b : ListNode κ ι}
  {l l' : List (ListNode κ ι)}

/-- A node is in one ring at most. -/
theorem disjoint (h : Lists.Holds m L) (hk : n ∈ L k) (hk' : n ∈ L k') : k = k' := by
  cases n with
  | xListEnd e => exact ((h.marker k e).mp hk).symm.trans ((h.marker k' e).mp hk')
  | item i => exact Option.some.inj (((h.container i k).mp hk).symm.trans ((h.container i k').mp hk'))

theorem not_mem_of_none (h : Lists.Holds m L) (hi : m.pxContainer i = none) (k : κ) :
    .item i ∉ L k := by
  rw [h.container, hi]
  simp

theorem prev_mem (h : Lists.Holds m L) (hb : b ∈ L k) : m.pxPrevious b ∈ L k := by
  obtain ⟨l, l', hL⟩ := List.append_of_mem hb
  have hring := h.ring k
  have hrot : L k = (l ++ [b]) ++ l' := by rw [hL]; simp
  rw [hrot, isRing_append_comm, ← List.append_assoc] at hring
  rw [hring.prev_snoc, hL]
  have hmem := List.getLast_mem (l := b :: (l' ++ l)) (by simp)
  simp only [List.mem_cons, List.mem_append] at hmem ⊢
  tauto

theorem next_mem (h : Lists.Holds m L) (hb : b ∈ L k) : m.pxNext b ∈ L k := by
  obtain ⟨l, l', hL⟩ := List.append_of_mem hb
  have hring := h.ring k
  have hrot : L k = (l ++ [b]) ++ l' := by rw [hL]; simp
  rw [hrot, isRing_append_comm, ← List.append_assoc] at hring
  rw [hL]
  cases hrest : l' ++ l with
  | nil =>
    rw [hrest, List.nil_append] at hring
    rw [(isRing_singleton.mp hring).1]
    simp
  | cons c rest =>
    rw [hrest] at hring
    rw [hring.next_snoc]
    have hc : c ∈ l' ++ l := by rw [hrest]; simp
    simp only [List.mem_cons, List.mem_append] at hc ⊢
    tauto

theorem index_mem (h : Lists.Holds m L) (k : κ) : m.pxIndex k ∈ L k :=
  List.mem_of_getLast? (h.index k)

theorem marker_mem (h : Lists.Holds m L) (k : κ) : .xListEnd k ∈ L k := (h.marker k k).mpr rfl

/-- An item is not its own neighbour: the end marker is in the ring, too. -/
theorem next_ne (h : Lists.Holds m L) (hi : m.pxContainer i = some k) :
    m.pxNext (.item i) ≠ .item i := by
  have hmem : .item i ∈ L k := (h.container i k).mpr hi
  obtain ⟨l, l', hL⟩ := List.append_of_mem hmem
  have hring := h.ring k
  have hnd := h.nodup k
  have hmark := h.marker_mem k
  have hrot : l ++ .item i :: l' = (l ++ [.item i]) ++ l' := by simp
  rw [hL, hrot, isRing_append_comm, ← List.append_assoc] at hring
  rw [hL, hrot, List.nodup_append_comm, ← List.append_assoc] at hnd
  rw [hL] at hmark
  cases hrest : l' ++ l with
  | nil =>
    obtain ⟨rfl, rfl⟩ := List.append_eq_nil_iff.mp hrest
    simp at hmark
  | cons c rest =>
    rw [hrest] at hring hnd
    rw [hring.next_snoc]
    rintro rfl
    exact (List.nodup_cons.mp hnd).1 (by simp)

theorem eq_concat_index (h : Lists.Holds m L) (k : κ) : L k = (L k).dropLast ++ [m.pxIndex k] := by
  have hne : L k ≠ [] := List.ne_nil_of_mem (h.index_mem k)
  have hlast := h.index k
  rw [List.getLast?_eq_getLast_of_ne_nil hne] at hlast
  rw [← Option.some.inj hlast, List.dropLast_append_getLast]

theorem isEmpty_iff (h : Lists.Holds m L) (k : κ) :
    m.listLIST_IS_EMPTY k = true ↔ ∀ i, m.pxContainer i ≠ some k := by
  have hcount := h.count k
  unfold Lists.listLIST_IS_EMPTY
  rw [decide_eq_true_eq]
  refine ⟨fun h0 i hi => ?_, fun hno => ?_⟩
  · rw [h0] at hcount
    obtain ⟨e, he⟩ := List.length_eq_one_iff.mp hcount
    have hmark := h.marker_mem k
    have hmem := (h.container i k).mpr hi
    rw [he, List.mem_singleton] at hmark hmem
    rw [← hmark] at hmem
    cases hmem
  · by_contra hne
    have hlen : 1 < (L k).length := by omega
    have hsub : ∀ n ∈ L k, n = .xListEnd k := by
      intro n hn
      cases n with
      | xListEnd e => rw [(h.marker k e).mp hn]
      | item i => exact absurd ((h.container i k).mp hn) (hno i)
    have hnd := h.nodup k
    obtain ⟨a, rest, hL⟩ := List.exists_cons_of_length_pos (show 0 < (L k).length by omega)
    obtain ⟨b, rest', rfl⟩ := List.exists_cons_of_length_pos (show 0 < rest.length by
      rw [hL] at hlen
      simpa using hlen)
    rw [hL] at hnd hsub
    have hab : a = b := (hsub a (by simp)).trans (hsub b (by simp)).symm
    simp [hab] at hnd

def SortedBy (m : Lists κ ι) (l : List (ListNode κ ι)) : Prop :=
  l.Pairwise fun a b => m.xItemValue a ≤ m.xItemValue b

theorem le_max (v : U32) : v ≤ portMAX_DELAY := by
  have hmax : portMAX_DELAY.toNat = 2 ^ 32 - 1 := rfl
  rw [BitVec.le_def, hmax]
  have := v.isLt
  omega

/-- The loop of `vListInsert` passes the items that are not greater. -/
theorem insertPosition_spec {v : U32} {e : ListNode κ ι} (hv : v < m.xItemValue e)
    {before rest : List (ListNode κ ι)} (hring : IsRing m.pxNext m.pxPrevious (before ++ rest ++ [e]))
    (hsorted : SortedBy m rest) {rounds : ℕ} (hrounds : rest.length ≤ rounds) :
    ∃ s t, rest = s ++ t ∧
      m.insertPosition v ((e :: before).getLast (by simp)) rounds =
        (e :: (before ++ s)).getLast (by simp) ∧
      (∀ a ∈ s, m.xItemValue a ≤ v) ∧ ∀ b ∈ t, v < m.xItemValue b := by
  induction rest generalizing before rounds with
  | nil =>
    refine ⟨[], [], rfl, ?_, by simp, by simp⟩
    have hnext : m.pxNext ((e :: before).getLast (by simp)) = e := by
      rw [List.append_nil, isRing_snoc, ← List.cons_append, List.isChain_append] at hring
      exact (hring.2.2 _ (List.getLast?_eq_getLast_of_ne_nil (by simp)) e rfl).1
    cases rounds with
    | zero => simp [Lists.insertPosition]
    | succ rounds =>
      have hno : ¬ m.xItemValue e ≤ v := BitVec.not_le.mpr hv
      simp [Lists.insertPosition, hnext, hno]
  | cons a rest ih =>
    cases rounds with
    | zero => simp at hrounds
    | succ rounds =>
      have hring' : IsRing m.pxNext m.pxPrevious (before ++ a :: (rest ++ [e])) := by simpa using hring
      have hnext : m.pxNext ((e :: before).getLast (by simp)) = a :=
        (hring'.linked_getLast (by rw [← List.cons_append, List.getLast?_concat])).1
      obtain ⟨hle, hsorted'⟩ := List.pairwise_cons.mp hsorted
      simp only [Lists.insertPosition, hnext]
      split_ifs with ha
      · have hring'' : IsRing m.pxNext m.pxPrevious (before ++ [a] ++ rest ++ [e]) := by
          simpa using hring
        obtain ⟨s, t, rfl, hpos, hs, ht⟩ := ih hring'' hsorted' (by simpa using hrounds)
        refine ⟨a :: s, t, rfl, ?_, fun b hb => ?_, ht⟩
        · have hlast : (e :: (before ++ [a])).getLast (by simp) = a := by simp
          rw [hlast] at hpos
          rw [hpos]
          simp
        · rcases List.mem_cons.mp hb with rfl | hb
          · exact ha
          · exact hs b hb
      · refine ⟨[], a :: rest, rfl, by simp, by simp, fun b hb => ?_⟩
        have ha : v < m.xItemValue a := BitVec.not_le.mp ha
        rcases List.mem_cons.mp hb with rfl | hb
        · exact ha
        · have hab := BitVec.le_def.mp (hle b hb)
          rw [BitVec.lt_def] at ha ⊢
          omega

/-- In a sorted list its value is the least. -/
theorem head_least (h : Lists.Holds m L) {rest : List (ListNode κ ι)} (hL : L k = .item i :: rest)
    (hsorted : SortedBy m (L k)) {j : ι} (hj : m.pxContainer j = some k) :
    m.xItemValue (.item i) ≤ m.xItemValue (.item j) := by
  have hmem := (h.container j k).mpr hj
  rw [hL] at hsorted hmem
  rcases List.mem_cons.mp hmem with heq | hmem
  · cases heq
    exact BitVec.le_def.mpr le_rfl
  · exact (List.pairwise_cons.mp hsorted).1 _ hmem

structure Elsewhere (m : Lists κ ι) (L : κ → List (ListNode κ ι)) (k : κ) (m' : Lists κ ι) : Prop where
  value : ∀ k, m'.xItemValue (.xListEnd k) = m.xItemValue (.xListEnd k)
  next : ∀ k', k' ≠ k → ∀ n ∈ L k', m'.pxNext n = m.pxNext n
  prev : ∀ k', k' ≠ k → ∀ n ∈ L k', m'.pxPrevious n = m.pxPrevious n
  index : ∀ k', k' ≠ k → m'.pxIndex k' = m.pxIndex k'
  container : ∀ k', k' ≠ k → ∀ i, m'.pxContainer i = some k' ↔ m.pxContainer i = some k'
  count : ∀ k', k' ≠ k → m'.uxNumberOfItems k' = m.uxNumberOfItems k'

/-- Replacing one ring. -/
theorem replace [DecidableEq κ] {m' : Lists κ ι} {r : List (ListNode κ ι)} (h : Lists.Holds m L)
    (hother : Elsewhere m L k m') (hring : IsRing m'.pxNext m'.pxPrevious r) (hnd : r.Nodup)
    (hindex : r.getLast? = some (m'.pxIndex k)) (hmark : ∀ e, .xListEnd e ∈ r ↔ e = k)
    (hcont : ∀ i, .item i ∈ r ↔ m'.pxContainer i = some k)
    (hcount : r.length = m'.uxNumberOfItems k + 1) :
    Lists.Holds m' (Function.update L k r) := by
  have hcases : ∀ {P : κ → List (ListNode κ ι) → Prop}, P k r → (∀ k', k' ≠ k → P k' (L k')) →
      ∀ k', P k' (Function.update L k r k') := by
    intro P hk hne k'
    by_cases hk' : k' = k
    · subst hk'
      rwa [Function.update_self]
    · rw [Function.update_of_ne hk']
      exact hne k' hk'
  refine ⟨?_, ?_, ?_, ?_, fun i => ?_, ?_, fun k => (hother.value k).trans (h.last k)⟩
  · exact hcases hring fun k' hk' => (h.ring k').congr (hother.next k' hk') (hother.prev k' hk')
  · exact hcases hnd fun k' _ => h.nodup k'
  · exact hcases (P := fun k' r => r.getLast? = some (m'.pxIndex k')) hindex fun k' hk' =>
      (h.index k').trans (congrArg some (hother.index k' hk').symm)
  · exact hcases (P := fun k' r => ∀ e, .xListEnd e ∈ r ↔ e = k') hmark fun k' _ => h.marker k'
  · exact hcases (P := fun k' r => .item i ∈ r ↔ m'.pxContainer i = some k') (hcont i) fun k' hk' =>
      (h.container i k').trans (hother.container k' hk' i).symm
  · exact hcases (P := fun k' r => r.length = m'.uxNumberOfItems k' + 1) hcount fun k' hk' =>
      (h.count k').trans (congrArg (· + 1) (hother.count k' hk').symm)

/-- The index moved on by one node. -/
theorem rotate [DecidableEq κ] (h : Lists.Holds m L) {a : ListNode κ ι} {rest : List (ListNode κ ι)}
    (hL : L k = a :: rest) :
    m.pxNext (m.pxIndex k) = a ∧
      Lists.Holds { m with pxIndex := Function.update m.pxIndex k a }
        (Function.update L k (rest ++ [a])) := by
  have hring := h.ring k
  have hindex := h.index k
  have hnd := h.nodup k
  have hmark := h.marker k
  have hcont := fun j => h.container j k
  have hcount := h.count k
  rw [hL] at hring hindex hnd hmark hcont hcount
  have hcons : a :: rest = [a] ++ rest := rfl
  refine ⟨?_, h.replace ⟨fun _ => rfl, fun _ _ _ _ => rfl, fun _ _ _ _ => rfl,
    fun k' hk' => Function.update_of_ne hk' _ _, fun _ _ _ => Iff.rfl, fun _ _ => rfl⟩ ?_ ?_ ?_
    (fun e => ?_) (fun j => ?_) ?_⟩
  · have hlink := (IsRing.linked_getLast (l := []) hring hindex).1
    simpa using hlink
  · exact isRing_append_comm.mp (hcons ▸ hring)
  · exact List.nodup_append_comm.mp (hcons ▸ hnd)
  · simp
  · rw [← hmark]
    simp [or_comm]
  · rw [← hcont]
    simp [or_comm]
  · rw [← hcount]
    simp

/-- The head entry of a list that is not empty is its first item. -/
theorem head_item [DecidableEq κ] (h : Lists.Holds m L) (hindex : m.pxIndex k = .xListEnd k)
    (hne : m.listLIST_IS_EMPTY k = false) :
    ∃ i rest, L k = .item i :: rest ∧ m.listGET_HEAD_ENTRY k = .item i ∧ m.pxContainer i = some k := by
  have hL := h.eq_concat_index k
  rw [hindex] at hL
  cases hitems : (L k).dropLast with
  | nil =>
    have hempty : m.listLIST_IS_EMPTY k = true := by
      rw [h.isEmpty_iff]
      intro i hi
      have hmem := (h.container i k).mpr hi
      rw [hL, hitems] at hmem
      simp at hmem
    rw [hempty] at hne
    cases hne
  | cons a rest =>
    rw [hitems, List.cons_append] at hL
    have ha : a ∈ L k := by rw [hL]; simp
    cases a with
    | xListEnd e =>
      have he := (h.marker k e).mp ha
      have hnd := h.nodup k
      rw [hL, he] at hnd
      simp at hnd
    | item i =>
      have hnext := (h.rotate hL).1
      rw [hindex] at hnext
      exact ⟨i, _, hL, hnext, (h.container i k).mp ha⟩

variable [DecidableEq κ] [DecidableEq ι]

/-- An item spliced in before the node `b` of the list `k`. -/
theorem splice (h : Lists.Holds m L) (hL : L k = l ++ b :: l') (hi : m.pxContainer i = none) :
    Lists.Holds { m with
      pxNext := spliceNext m.pxNext (m.pxPrevious b) (.item i) b
      pxPrevious := splicePrev m.pxPrevious (m.pxPrevious b) (.item i) b
      pxContainer := Function.update m.pxContainer i (some k)
      uxNumberOfItems := Function.update m.uxNumberOfItems k (m.uxNumberOfItems k + 1) }
      (Function.update L k (l ++ .item i :: b :: l')) := by
  have hb : b ∈ L k := by rw [hL]; simp
  have hp := h.prev_mem hb
  have hx := h.not_mem_of_none hi
  have hring := h.ring k
  have hnd := h.nodup k
  have hindex := h.index k
  have hmark := h.marker k
  have hcont := fun j => h.container j k
  have hcount := h.count k
  have hxk := hx k
  rw [hL] at hring hnd hindex hmark hcont hcount hxk
  refine h.replace ⟨fun _ => rfl, fun k' hk' n hn => ?_, fun k' hk' n hn => ?_, fun _ _ => rfl,
    fun k' hk' j => ?_, fun k' hk' => Function.update_of_ne hk' _ _⟩ (hring.splice_before hnd hxk)
    (List.nodup_middle.mpr (List.nodup_cons.mpr ⟨hxk, hnd⟩)) ?_ (fun e => ?_) (fun j => ?_) ?_
  · have h1 : n ≠ .item i := fun heq => hx k' (heq ▸ hn)
    have h2 : n ≠ m.pxPrevious b := fun heq => hk' (h.disjoint hn (heq ▸ hp))
    simp only [spliceNext]
    rw [Function.update_of_ne h2, Function.update_of_ne h1]
  · have h1 : n ≠ .item i := fun heq => hx k' (heq ▸ hn)
    have h2 : n ≠ b := fun heq => hk' (h.disjoint hn (heq ▸ hb))
    simp only [splicePrev]
    rw [Function.update_of_ne h2, Function.update_of_ne h1]
  · by_cases hj : j = i
    · subst hj
      simp only
      rw [Function.update_self, hi]
      simp [Ne.symm hk']
    · simp only
      rw [Function.update_of_ne hj]
  · simpa using hindex
  · rw [← hmark]
    simp
  · by_cases hj : j = i
    · subst hj
      simp
    · simp only
      rw [Function.update_of_ne hj, ← hcont]
      simp [hj]
  · simp only
    rw [Function.update_self, ← hcount]
    simp only [List.length_append, List.length_cons]
    omega

/-- The item taken out of its ring. -/
theorem unlink (h : Lists.Holds m L) (hi : m.pxContainer i = some k) :
    Lists.Holds { m with
      pxNext := unlinkNext m.pxNext m.pxPrevious (.item i)
      pxPrevious := unlinkPrev m.pxNext m.pxPrevious (.item i)
      pxIndex := if m.pxIndex k = .item i then
          Function.update m.pxIndex k (m.pxPrevious (.item i)) else m.pxIndex
      pxContainer := Function.update m.pxContainer i none
      uxNumberOfItems := Function.update m.uxNumberOfItems k (m.uxNumberOfItems k - 1) }
      (Function.update L k ((L k).erase (.item i))) := by
  have hmem : .item i ∈ L k := (h.container i k).mpr hi
  have hp := h.prev_mem hmem
  have hn := h.next_mem hmem
  obtain ⟨l, l', hL⟩ := List.append_of_mem hmem
  have hring := h.ring k
  have hnd := h.nodup k
  have hindex := h.index k
  have hmark := h.marker k
  have hcont := fun j => h.container j k
  have hcount := h.count k
  rw [hL] at hring hnd hindex hmark hcont hcount
  have hx : .item i ∉ l ∧ .item i ∉ l' := by
    have hmid := (List.nodup_cons.mp (List.nodup_middle.mp hnd)).1
    simpa using hmid
  have herase : (L k).erase (.item i) = l ++ l' := by
    rw [hL, List.erase_append_right _ hx.1, List.erase_cons_head]
  have hmark' : ∀ e, ListNode.xListEnd e ∈ l ++ l' ↔ e = k := by
    intro e
    rw [← hmark]
    simp
  have hne : l ++ l' ≠ [] := List.ne_nil_of_mem ((hmark' k).mpr rfl)
  have hprev : l' = [] → l.getLast? = some (m.pxPrevious (.item i)) := by
    rintro rfl
    rw [List.append_nil] at hne
    obtain ⟨l, z, rfl⟩ := List.eq_nil_or_concat l |>.resolve_left hne
    rw [List.concat_eq_append, List.append_assoc] at hring
    have hring' : IsRing m.pxNext m.pxPrevious (l ++ z :: .item i :: []) := by simpa using hring
    rw [List.concat_eq_append, List.getLast?_concat]
    exact congrArg some hring'.linked.2.symm
  rw [herase]
  refine h.replace ⟨fun _ => rfl, fun k' hk' n hn' => ?_, fun k' hk' n hn' => ?_, fun k' hk' => ?_,
    fun k' hk' j => ?_, fun k' hk' => Function.update_of_ne hk' _ _⟩ (hring.unlink hnd hne)
    ?_ ?_ hmark' (fun j => ?_) ?_
  · have hne' : n ≠ m.pxPrevious (.item i) := fun heq => hk' (h.disjoint hn' (heq ▸ hp))
    exact Function.update_of_ne hne' _ _
  · have hne' : n ≠ m.pxNext (.item i) := fun heq => hk' (h.disjoint hn' (heq ▸ hn))
    exact Function.update_of_ne hne' _ _
  · simp only
    split_ifs
    · exact Function.update_of_ne hk' _ _
    · rfl
  · by_cases hj : j = i
    · subst hj
      simp only
      rw [Function.update_self, hi]
      simp [Ne.symm hk']
    · simp only
      rw [Function.update_of_ne hj]
  · exact (List.nodup_cons.mp (List.nodup_middle.mp hnd)).2
  · -- the index moves to the node before if it stood on the item
    cases l' with
    | nil =>
      have heq : m.pxIndex k = .item i := by simpa using hindex.symm
      simp only [if_pos heq, Function.update_self, List.append_nil]
      exact hprev rfl
    | cons c l' =>
      rw [List.getLast?_append_cons, List.getLast?_cons_cons] at hindex
      have hne' : m.pxIndex k ≠ .item i := fun heq =>
        hx.2 (heq ▸ List.mem_of_getLast? hindex)
      simp only [if_neg hne', List.getLast?_append_cons]
      exact hindex
  · by_cases hj : j = i
    · subst hj
      simp only
      rw [Function.update_self]
      simp [hx.1, hx.2]
    · simp only
      rw [Function.update_of_ne hj, ← hcont]
      simp [hj]
  · simp only
    rw [Function.update_self]
    simp only [List.length_append, List.length_cons] at hcount ⊢
    have hpos : 0 < (l ++ l').length := List.length_pos_of_ne_nil hne
    rw [List.length_append] at hpos
    omega

/-- A new item is the last one before the index. -/
theorem vListInsertEnd (h : Lists.Holds m L) (hi : m.pxContainer i = none) (k : κ) :
    Lists.Holds (m.vListInsertEnd k i)
      (Function.update L k ((L k).dropLast ++ [.item i, m.pxIndex k])) :=
  h.splice (h.eq_concat_index k) hi

/-- The item leaves its list, and the number of the items left is returned. -/
theorem uxListRemove (h : Lists.Holds m L) (hi : m.pxContainer i = some k) :
    Lists.Holds (m.uxListRemove i).2 (Function.update L k ((L k).erase (.item i))) ∧
      (m.uxListRemove i).1 + 1 = ((L k).erase (.item i)).length := by
  have hne := h.next_ne hi
  have hprev : Function.update m.pxPrevious (m.pxNext (.item i)) (m.pxPrevious (.item i)) (.item i) =
      m.pxPrevious (.item i) := Function.update_of_ne hne.symm _ _
  have hout := h.unlink hi
  have heq : (m.uxListRemove i).2 = { m with
      pxNext := unlinkNext m.pxNext m.pxPrevious (.item i)
      pxPrevious := unlinkPrev m.pxNext m.pxPrevious (.item i)
      pxIndex := if m.pxIndex k = .item i then
          Function.update m.pxIndex k (m.pxPrevious (.item i)) else m.pxIndex
      pxContainer := Function.update m.pxContainer i none
      uxNumberOfItems := Function.update m.uxNumberOfItems k (m.uxNumberOfItems k - 1) } := by
    simp only [Lists.uxListRemove, hi, hprev]
    rfl
  have hcount := hout.count k
  simp only [Function.update_self] at hcount
  refine ⟨heq ▸ hout, ?_⟩
  rw [hcount]
  simp only [Lists.uxListRemove, hi]

/-- Where `vListInsert` puts the item, before the node `b`. -/
theorem vListInsert_eq (m : Lists κ ι) (k : κ) (i : ι) (b : ListNode κ ι)
    (hb : b ≠ .item i)
    (hpos : (if m.xItemValue (.item i) = portMAX_DELAY then m.pxPrevious (.xListEnd k)
      else m.insertPosition (m.xItemValue (.item i)) (.xListEnd k) (m.uxNumberOfItems k)) =
        m.pxPrevious b) (hnext : m.pxNext (m.pxPrevious b) = b) :
    m.vListInsert k i = { m with
      pxNext := spliceNext m.pxNext (m.pxPrevious b) (.item i) b
      pxPrevious := splicePrev m.pxPrevious (m.pxPrevious b) (.item i) b
      pxContainer := Function.update m.pxContainer i (some k)
      uxNumberOfItems := Function.update m.uxNumberOfItems k (m.uxNumberOfItems k + 1) } := by
  unfold Lists.vListInsert
  simp only [hpos, hnext, spliceNext, splicePrev, Function.update_comm hb]

/-- The item is put behind the items that are not greater and before those that are; so
among equal values the one inserted first comes first. -/
theorem vListInsert (h : Lists.Holds m L) (hindex : m.pxIndex k = .xListEnd k)
    (hsorted : SortedBy m (L k)) (hi : m.pxContainer i = none) :
    ∃ l l', L k = l ++ l' ∧ l' ≠ [] ∧ (∀ a ∈ l, m.xItemValue a ≤ m.xItemValue (.item i)) ∧
      (∀ b ∈ l', b = .xListEnd k ∨ m.xItemValue (.item i) < m.xItemValue b) ∧
      Lists.Holds (m.vListInsert k i) (Function.update L k (l ++ .item i :: l')) := by
  have hL := h.eq_concat_index k
  rw [hindex] at hL
  generalize (L k).dropLast = items at hL
  have hring := h.ring k
  have hx := h.not_mem_of_none hi k
  rw [hL] at hring hsorted hx
  have hend : ListNode.xListEnd k ≠ .item i := by simp
  have hprev := hring.prev_snoc
  by_cases hmax : m.xItemValue (.item i) = portMAX_DELAY
  · -- the loop would not end on the value of the marker
    refine ⟨items, [.xListEnd k], hL, by simp, fun a _ => hmax ▸ le_max _, by simp, ?_⟩
    have hnext : m.pxNext (m.pxPrevious (.xListEnd k)) = .xListEnd k := by
      rw [isRing_snoc, ← List.cons_append, List.isChain_append] at hring
      rw [hprev]
      exact (hring.2.2 _ (List.getLast?_eq_getLast_of_ne_nil (by simp)) _ rfl).1
    rw [vListInsert_eq m k i (.xListEnd k) hend (if_pos hmax) hnext]
    exact h.splice hL hi
  · have hv : m.xItemValue (.item i) < m.xItemValue (.xListEnd k) := by
      rw [h.last]
      exact BitVec.lt_of_le_ne (le_max _) hmax
    have hcount := h.count k
    rw [hL, List.length_append, List.length_singleton] at hcount
    have hring' : IsRing m.pxNext m.pxPrevious ([] ++ items ++ [.xListEnd k]) := hring
    obtain ⟨s, t, rfl, hpos, hs, ht⟩ := insertPosition_spec hv hring'
      (List.pairwise_append.mp hsorted).1 (show items.length ≤ m.uxNumberOfItems k by omega)
    simp only [List.getLast_singleton, List.nil_append] at hpos
    refine ⟨s, t ++ [.xListEnd k], by rw [hL, List.append_assoc], by simp, hs, fun b hb => ?_, ?_⟩
    · rcases List.mem_append.mp hb with hb | hb
      · exact Or.inr (ht b hb)
      · exact Or.inl (List.mem_singleton.mp hb)
    · obtain ⟨b, rest, hb⟩ := List.exists_cons_of_ne_nil (show t ++ [ListNode.xListEnd k] ≠ [] by simp)
      rw [List.append_assoc, hb] at hL hring hx
      have hz : (b :: rest).getLast? = some (.xListEnd k) := by
        rw [← hb]
        simp
      obtain ⟨hn, hp⟩ := hring.linked_getLast hz
      have hbi : b ≠ .item i := by
        rintro rfl
        exact hx (by simp)
      rw [vListInsert_eq m k i b hbi (by rw [if_neg hmax, hpos, hp]) (by rw [hp, hn]), hb]
      exact h.splice hL hi

/-- The ring after `listGET_OWNER_OF_NEXT_ENTRY`: one node on, or two past the marker. -/
def turn (k : κ) : List (ListNode κ ι) → List (ListNode κ ι)
  | [] => []
  | a :: rest =>
      match rest ++ [a] with
      | [] => []
      | b :: rest' => if a = .xListEnd k then rest' ++ [b] else b :: rest'

theorem listGET_OWNER_OF_NEXT_ENTRY (h : Lists.Holds m L) (k : κ) :
    Lists.Holds (m.listGET_OWNER_OF_NEXT_ENTRY k).2 (Function.update L k (turn k (L k))) ∧
      (turn k (L k)).getLast? = some (m.listGET_OWNER_OF_NEXT_ENTRY k).1 := by
  have hout : Lists.Holds (m.listGET_OWNER_OF_NEXT_ENTRY k).2 (Function.update L k (turn k (L k))) := by
    obtain ⟨a, rest, hL⟩ := List.exists_cons_of_ne_nil (List.ne_nil_of_mem (h.index_mem k))
    obtain ⟨hnext, hrot⟩ := h.rotate hL
    obtain ⟨b, rest', hb⟩ := List.exists_cons_of_ne_nil (show rest ++ [a] ≠ [] by simp)
    unfold Lists.listGET_OWNER_OF_NEXT_ENTRY
    rw [hL]
    simp only [turn, hnext, hb]
    split_ifs with ha
    · obtain ⟨hnext', hrot'⟩ := hrot.rotate (k := k) (by rw [Function.update_self, hb])
      simp only [Function.update_self, Function.update_idem] at hnext' hrot'
      rw [hnext']
      exact hrot'
    · rwa [hb] at hrot
  have hlast := hout.index k
  rw [Function.update_self] at hlast
  refine ⟨hout, hlast.trans ?_⟩
  simp [Lists.listGET_OWNER_OF_NEXT_ENTRY]

@[simp] theorem vListInsertEnd_value (m : Lists κ ι) (k : κ) (i : ι) :
    (m.vListInsertEnd k i).xItemValue = m.xItemValue := rfl

@[simp] theorem vListInsert_value (m : Lists κ ι) (k : κ) (i : ι) :
    (m.vListInsert k i).xItemValue = m.xItemValue := rfl

@[simp] theorem uxListRemove_value (m : Lists κ ι) (i : ι) :
    (m.uxListRemove i).2.xItemValue = m.xItemValue := by
  unfold Lists.uxListRemove
  split <;> rfl

@[simp] theorem vListInsertEnd_container (m : Lists κ ι) (k : κ) (i : ι) :
    (m.vListInsertEnd k i).pxContainer = Function.update m.pxContainer i (some k) := rfl

@[simp] theorem vListInsert_container (m : Lists κ ι) (k : κ) (i : ι) :
    (m.vListInsert k i).pxContainer = Function.update m.pxContainer i (some k) := rfl

@[simp] theorem uxListRemove_container (m : Lists κ ι) (i : ι) :
    (m.uxListRemove i).2.pxContainer = Function.update m.pxContainer i none := by
  unfold Lists.uxListRemove
  split
  · rename_i hnone
    rw [← hnone, Function.update_eq_self]
  · rfl

/-- The result is the new number of items. -/
theorem uxListRemove_count (m : Lists κ ι) {i : ι} {k : κ} (hi : m.pxContainer i = some k) :
    (m.uxListRemove i).2.uxNumberOfItems k = (m.uxListRemove i).1 := by
  simp only [Lists.uxListRemove, hi, Function.update_self]

theorem vListInsertEnd_count_of_ne (m : Lists κ ι) (i : ι) {k k' : κ} (hk : k ≠ k') :
    (m.vListInsertEnd k' i).uxNumberOfItems k = m.uxNumberOfItems k := by
  simp only [Lists.vListInsertEnd]
  rw [Function.update_of_ne hk]

theorem uxListRemove_count_of_ne (m : Lists κ ι) {i : ι} {k : κ} (hi : m.pxContainer i ≠ some k) :
    (m.uxListRemove i).2.uxNumberOfItems k = m.uxNumberOfItems k := by
  unfold Lists.uxListRemove
  split
  · rfl
  · rename_i k' hk'
    have hne : k ≠ k' := by
      rintro rfl
      exact hi hk'
    exact Function.update_of_ne hne _ _

@[simp] theorem vListInsertEnd_index (m : Lists κ ι) (k : κ) (i : ι) :
    (m.vListInsertEnd k i).pxIndex = m.pxIndex := rfl

@[simp] theorem vListInsert_index (m : Lists κ ι) (k : κ) (i : ι) :
    (m.vListInsert k i).pxIndex = m.pxIndex := rfl

/-- An index on the end marker stays there. -/
theorem uxListRemove_index (m : Lists κ ι) (i : ι) {k : κ} (h : m.pxIndex k = .xListEnd k) :
    (m.uxListRemove i).2.pxIndex k = .xListEnd k := by
  unfold Lists.uxListRemove
  split
  · exact h
  · rename_i k' _
    simp only
    split_ifs with hi
    · have hne : k ≠ k' := by
        rintro rfl
        cases h.symm.trans hi
      rw [Function.update_of_ne hne, h]
    · exact h

theorem set_value (h : Lists.Holds m L) (i : ι) (v : U32) :
    Lists.Holds (m.listSET_LIST_ITEM_VALUE i v) L := by
  refine ⟨h.ring, h.nodup, h.index, h.marker, h.container, h.count, fun k => ?_⟩
  have hne : ListNode.xListEnd k ≠ .item i := by simp
  exact (Function.update_of_ne hne v m.xItemValue).trans (h.last k)

/-- The number of items left says whether any other item is in the list. -/
theorem left_eq_zero_iff (h : Lists.Holds m L) (hi : m.pxContainer i = some k) :
    (m.uxListRemove i).1 = 0 ↔ ∀ j, j ≠ i → m.pxContainer j ≠ some k := by
  have hempty := (h.uxListRemove hi).1.isEmpty_iff k
  unfold Lists.listLIST_IS_EMPTY at hempty
  rw [decide_eq_true_eq] at hempty
  rw [← uxListRemove_count m hi, hempty, uxListRemove_container]
  refine ⟨fun hno j hj => ?_, fun hno j => ?_⟩
  · have hj' := hno j
    rwa [Function.update_of_ne hj] at hj'
  · by_cases hj : j = i
    · subst hj
      simp
    · rw [Function.update_of_ne hj]
      exact hno j hj

/-- The next entry of a list that is not empty is an item of it. -/
theorem entry_item (h : Lists.Holds m L) (hi : m.pxContainer i = some k) :
    ∃ j, (m.listGET_OWNER_OF_NEXT_ENTRY k).1 = .item j ∧ m.pxContainer j = some k := by
  have hlast := (h.listGET_OWNER_OF_NEXT_ENTRY k).2
  have hmem := (h.container i k).mpr hi
  have hitem : ∀ n ∈ L k, n ≠ .xListEnd k → (turn k (L k)).getLast? = some n →
      ∃ j, (m.listGET_OWNER_OF_NEXT_ENTRY k).1 = .item j ∧ m.pxContainer j = some k := by
    intro n hn hne hturn
    rw [hlast] at hturn
    cases n with
    | xListEnd e => exact absurd (congrArg ListNode.xListEnd ((h.marker k e).mp hn)) hne
    | item j => exact ⟨j, Option.some.inj hturn, (h.container j k).mp hn⟩
  have hnd := h.nodup k
  cases hL : L k with
  | nil =>
    rw [hL] at hmem
    cases hmem
  | cons a rest =>
    rw [hL] at hmem hnd
    by_cases ha : a = .xListEnd k
    · -- the marker is passed over
      subst ha
      cases rest with
      | nil => simp at hmem
      | cons b rest =>
        refine hitem b (by simp [hL]) ?_ (by simp [hL, turn])
        rintro rfl
        simp at hnd
    · refine hitem a (by simp [hL]) ha ?_
      rw [hL]
      cases rest with
      | nil => simp [turn, ha]
      | cons b rest =>
        rw [turn, List.cons_append]
        simp only [if_neg ha]
        rw [← List.cons_append, List.getLast?_concat]

end Lists.Holds

end Stm32F407
