import Stm32F407.Proofs.ModbusFunc

/-! Reading the four register tables. The holding registers are addressed from
zero; in the other three tables the handler's increment of the address is never
taken back, so a request reads one element further on than its address says. -/

namespace Stm32F407

open Lib

inductive ReadTable where
  | coils
  | discrete
  | input
  | holding
  deriving DecidableEq

namespace ReadTable

def handler (sz : RegSizes) (s : Slave) : ReadTable → (ℕ → U8) → U16 → HandlerResult
  | .coils => eMBFuncReadCoils sz s
  | .discrete => eMBFuncReadDiscreteInputs sz s
  | .input => eMBFuncReadInputRegister sz s
  | .holding => eMBFuncReadHoldingRegister sz s

def size (sz : RegSizes) : ReadTable → ℕ
  | .coils => sz.coilsSize
  | .discrete => sz.discreteSize
  | .input => sz.inputNRegs
  | .holding => sz.holdingNRegs

/-- The largest quantity the handler accepts. -/
def maxQuantity : ReadTable → ℕ
  | .coils => 1999
  | .discrete => 1999
  | .input => 124
  | .holding => 125

def elem (r : Regs) (k : ℕ) : ReadTable → U16
  | .coils => if bitAt r.ucRegCoilsBuf k then 1 else 0
  | .discrete => if bitAt r.ucRegDiscreteBuf k then 1 else 0
  | .input => r.usRegInputBuf k
  | .holding => r.usRegHoldingBuf k

def data (frame : ℕ → U8) (i : ℕ) : ReadTable → U16
  | .coils => if (frame (2 + i / 8)).getLsbD (i % 8) then 1 else 0
  | .discrete => if (frame (2 + i / 8)).getLsbD (i % 8) then 1 else 0
  | .input => pduWord frame (2 + 2 * i)
  | .holding => pduWord frame (2 + 2 * i)

def dataBytes (n : ℕ) : ReadTable → ℕ
  | .coils => (n + 7) / 8
  | .discrete => (n + 7) / 8
  | .input => 2 * n
  | .holding => 2 * n

end ReadTable

def Returns (t : ReadTable) (r : Regs) (a n : ℕ) (out : HandlerResult) : Prop :=
  out.usLen.toNat = 2 + t.dataBytes n ∧ ∀ i < n, t.data out.frame i = t.elem r (a + i)

/-- Addressing from zero: what is answered are the elements asked for, and every
request within the limits of the handler and of the table is answered. -/
def AddressedFromZero (t : ReadTable) (sz : RegSizes) (s : Slave) (pucFrame : ℕ → U8) : Prop :=
  let a := (pduWord pucFrame 1).toNat
  let n := (pduWord pucFrame 3).toNat
  let out := t.handler sz s pucFrame 5
  (out.eStatus = .none → 1 ≤ n ∧ a + n ≤ t.size sz ∧ Returns t s.regs a n out) ∧
    (1 ≤ n → n ≤ t.maxQuantity → a + n ≤ t.size sz → out.eStatus = .none)

def ReadTable.quantity (n : ℕ) : ReadTable → ℕ
  | .holding => n % 256
  | _ => n

def ReadTable.first (a : ℕ) : ReadTable → ℕ
  | .holding => a
  | _ => (a + 1) % 2 ^ 16

/-- The callback accepts the elements from `first` on; the two bit tables also
reject an address that is negative as a 16-bit integer. -/
def ReadTable.Reaches (sz : RegSizes) (first n : ℕ) : ReadTable → Prop
  | .coils => first < 2 ^ 15 ∧ first + n ≤ sz.coilsSize
  | .discrete => first < 2 ^ 15 ∧ first + n ≤ sz.discreteSize
  | .input => first + n ≤ sz.inputNRegs
  | .holding => first + n ≤ sz.holdingNRegs

structure Answers (t : ReadTable) (r : Regs) (first n : ℕ) (accepted : Prop) (out : HandlerResult) :
    Prop where
  accepts : out.eStatus = .none ↔ accepted
  returns : accepted → Returns t r first n out

theorem answers_refused {t : ReadTable} {r : Regs} {first n : ℕ} {accepted : Prop}
    {out : HandlerResult} (hex : out.eStatus ≠ .none) (hno : ¬ accepted) :
    Answers t r first n accepted out :=
  ⟨⟨fun h => absurd h hex, fun h => absurd h hno⟩, fun h => absurd h hno⟩

theorem Answers.congr {t : ReadTable} {r : Regs} {first n : ℕ} {accepted accepted' : Prop}
    {out : HandlerResult} (h : Answers t r first n accepted out) (hiff : accepted ↔ accepted') :
    Answers t r first n accepted' out :=
  ⟨h.accepts.trans hiff, fun ha => h.returns (hiff.mpr ha)⟩

theorem readRequest_answers {t : ReadTable} {fc : U8} {max : U16} {nBytes : U16 → U8}
    {grow : U16 → U16} {cb : (ℕ → U8) → ℕ → U16 → U16 → EMBErrorCode × (ℕ → U8)} {s : Slave}
    {f : ℕ → U8} (accepted : ℕ → ℕ → Prop)
    (hrefuse : ∀ buf a n, ¬ accepted a.toNat n.toNat → (cb buf 2 a n).1 = .noReg)
    (haccept : ∀ buf a n, 1 ≤ n.toNat → n < max → accepted a.toNat n.toNat →
      (cb buf 2 a n).1 = .noErr ∧ (2 + grow n).toNat = 2 + t.dataBytes n.toNat ∧
        ∀ i < n.toNat, t.data (cb buf 2 a n).2 i = t.elem s.regs (a.toNat + i)) :
    Answers t s.regs (pduWord f 1 + 1).toNat (pduWord f 3).toNat
      ((1 ≤ pduWord f 3 ∧ pduWord f 3 < max) ∧ accepted (pduWord f 1 + 1).toNat (pduWord f 3).toNat)
      (readRequest fc max nBytes grow cb s f 5) := by
  unfold readRequest
  rw [if_pos rfl]
  by_cases hn : 1 ≤ pduWord f 3 ∧ pduWord f 3 < max
  · simp only [if_pos hn]
    set buf := Function.update (Function.update f 0 fc) 1 (nBytes (pduWord f 3)) with hbuf
    by_cases hacc : accepted (pduWord f 1 + 1).toNat (pduWord f 3).toNat
    · obtain ⟨hok, hlen, hdata⟩ := haccept buf _ _ (BitVec.le_def.mp hn.1) hn.2 hacc
      rw [if_neg (not_not_intro hok)]
      exact ⟨⟨fun _ => ⟨hn, hacc⟩, fun _ => rfl⟩, fun _ => ⟨hlen, hdata⟩⟩
    · have herr := hrefuse buf _ _ hacc
      rw [if_pos (by rw [herr]; decide), herr]
      exact answers_refused nofun fun h => hacc h.2
  · simp only [if_neg hn]
    exact answers_refused nofun fun h => hn h.1

/-- The bits a read puts into the reply. -/
theorem readBits_reply (tbl : ℕ → U8) (buf : ℕ → U8) {a n : U16} (ha : a.toNat < 2 ^ 15)
    (hn : n.toNat ≤ 1999) (i : ℕ) (hi : i < n.toNat) :
    (readBits tbl a n.toInt.toNat buf 2 (bitRounds n) (2 + i / 8)).getLsbD (i % 8) =
      bitAt tbl (a.toNat + i) := by
  obtain ⟨hint, hrounds⟩ := bitRounds_eq (n := n) (by omega)
  rw [hint, hrounds]
  exact readBits_bitAt tbl a _ buf 2 i hi (by omega)

theorem lt_max {n max : U16} (h : n < max) : n.toNat < max.toNat := BitVec.lt_def.mp h

theorem readCoils_answers (sz : RegSizes) (s : Slave) (f : ℕ → U8) :
    Answers .coils s.regs (pduWord f 1 + 1).toNat (pduWord f 3).toNat
      ((1 ≤ pduWord f 3 ∧ pduWord f 3 < 0x07D0) ∧
        ReadTable.coils.Reaches sz (pduWord f 1 + 1).toNat (pduWord f 3).toNat)
      (eMBFuncReadCoils sz s f 5) := by
  refine readRequest_answers (t := .coils) (fun a n => a < 2 ^ 15 ∧ a + n ≤ sz.coilsSize) ?_ ?_
  · intro buf a n hno
    simp only [coilsCB_read, if_neg hno]
  · intro buf a n _ hmax hacc
    have hn : n.toNat ≤ 1999 := Nat.le_of_lt_succ (lt_max hmax)
    simp only [coilsCB_read, if_pos hacc]
    refine ⟨trivial, coilReply_length hn, fun i hi => ?_⟩
    simp only [ReadTable.data, ReadTable.elem, readBits_reply _ _ hacc.1 hn i hi]

theorem readDiscrete_answers (sz : RegSizes) (s : Slave) (f : ℕ → U8) :
    Answers .discrete s.regs (pduWord f 1 + 1).toNat (pduWord f 3).toNat
      ((1 ≤ pduWord f 3 ∧ pduWord f 3 < 0x07D0) ∧
        ReadTable.discrete.Reaches sz (pduWord f 1 + 1).toNat (pduWord f 3).toNat)
      (eMBFuncReadDiscreteInputs sz s f 5) := by
  refine readRequest_answers (t := .discrete) (fun a n => a < 2 ^ 15 ∧ a + n ≤ sz.discreteSize) ?_ ?_
  · intro buf a n hno
    simp only [discreteCB_eq, if_neg hno]
  · intro buf a n _ hmax hacc
    have hn : n.toNat ≤ 1999 := Nat.le_of_lt_succ (lt_max hmax)
    simp only [discreteCB_eq, if_pos hacc]
    refine ⟨trivial, coilReply_length hn, fun i hi => ?_⟩
    simp only [ReadTable.data, ReadTable.elem, readBits_reply _ _ hacc.1 hn i hi]

theorem readInput_answers (sz : RegSizes) (s : Slave) (f : ℕ → U8) :
    Answers .input s.regs (pduWord f 1 + 1).toNat (pduWord f 3).toNat
      ((1 ≤ pduWord f 3 ∧ pduWord f 3 < 0x007D) ∧
        ReadTable.input.Reaches sz (pduWord f 1 + 1).toNat (pduWord f 3).toNat)
      (eMBFuncReadInputRegister sz s f 5) := by
  refine readRequest_answers (t := .input) (fun a n => a + n ≤ sz.inputNRegs) ?_ ?_
  · intro buf a n hno
    simp only [inputCB_eq, if_neg hno]
  · intro buf a n _ hmax hacc
    have hn : n.toNat < 125 := lt_max hmax
    simp only [inputCB_eq, if_pos hacc]
    refine ⟨trivial, replyLength_eq hn.le, fun i hi => ?_⟩
    simp only [ReadTable.data, ReadTable.elem]
    rw [pduWord_blit_regBytes _ _ _ _ (by simpa using hi), slice_getElem]

theorem readHolding_answers (sz : RegSizes) (s : Slave) (f : ℕ → U8) :
    Answers .holding s.regs (pduWord f 1).toNat (readHoldingCount f).toNat
      (ReadHoldingChecks f 5 ∧
        ReadTable.holding.Reaches sz (pduWord f 1).toNat (readHoldingCount f).toNat)
      (eMBFuncReadHoldingRegister sz s f 5) := by
  rw [readHolding_eq]
  by_cases hchk : ReadHoldingChecks f 5
  · rw [if_pos hchk]
    by_cases hin : (pduWord f 1).toNat + (readHoldingCount f).toNat ≤ sz.holdingNRegs
    · rw [if_pos hin]
      refine ⟨⟨fun _ => ⟨hchk, hin⟩, fun _ => rfl⟩, fun _ => ⟨?_, fun i hi => ?_⟩⟩
      · exact replyLength_eq (BitVec.le_def.mp hchk.2.2)
      · exact (pduWord_blit_regBytes _ 2 _ i (by simpa using hi)).trans (slice_getElem _ _ _ _ _)
    · rw [if_neg hin]
      exact answers_refused nofun fun h => hin h.2
  · rw [if_neg hchk]
    exact answers_refused nofun fun h => hchk h.1

/-- All four handlers in one form. -/
theorem handler_answers (t : ReadTable) (sz : RegSizes) (s : Slave) (f : ℕ → U8) :
    Answers t s.regs (t.first (pduWord f 1).toNat) (t.quantity (pduWord f 3).toNat)
      ((1 ≤ t.quantity (pduWord f 3).toNat ∧ t.quantity (pduWord f 3).toNat ≤ t.maxQuantity) ∧
        t.Reaches sz (t.first (pduWord f 1).toNat) (t.quantity (pduWord f 3).toNat))
      (t.handler sz s f 5) := by
  have hfirst : (pduWord f 1 + 1).toNat = ((pduWord f 1).toNat + 1) % 2 ^ 16 := BitVec.toNat_add _ _
  have hlt : ∀ n max : U16, n < max ↔ n.toNat < max.toNat := fun _ _ => BitVec.lt_def
  have hle : ∀ n max : U16, n ≤ max ↔ n.toNat ≤ max.toNat := fun _ _ => BitVec.le_def
  cases t with
  | coils =>
    have h := readCoils_answers sz s f
    rw [hfirst] at h
    exact h.congr (and_congr_left' (and_congr (hle _ _) ((hlt _ _).trans Nat.lt_succ_iff)))
  | discrete =>
    have h := readDiscrete_answers sz s f
    rw [hfirst] at h
    exact h.congr (and_congr_left' (and_congr (hle _ _) ((hlt _ _).trans Nat.lt_succ_iff)))
  | input =>
    have h := readInput_answers sz s f
    rw [hfirst] at h
    exact h.congr (and_congr_left' (and_congr (hle _ _) ((hlt _ _).trans Nat.lt_succ_iff)))
  | holding =>
    have hq : (readHoldingCount f).toNat = (pduWord f 3).toNat % 256 := by
      have hlo := (f 4).isLt
      have hcell : (f (3 + 1)).toNat = (f 4).toNat := rfl
      rw [readHoldingCount, pduWord, be16_toNat, BitVec.toNat_setWidth, hcell]
      omega
    have h := readHolding_answers sz s f
    rw [hq] at h
    refine h.congr (and_congr_left' ?_)
    rw [ReadHoldingChecks, hle, hle, hq]
    exact and_iff_right rfl

theorem returns_iff {t : ReadTable} {r : Regs} {a b n : ℕ} {out : HandlerResult}
    (h : Returns t r b n out) : Returns t r a n out ↔ ∀ i < n, t.elem r (b + i) = t.elem r (a + i) := by
  refine ⟨fun h' i hi => ?_, fun heq => ⟨h.1, fun i hi => ?_⟩⟩
  · rw [← h.2 i hi, h'.2 i hi]
  · rw [h.2 i hi, heq i hi]

/-- A read that starts one element too far goes unnoticed: the quantity is out of
the handler's limits, or the range asked for and the one after it both miss the
table, or both are inside and hold the same elements. -/
def ShiftUnnoticed (sz : RegSizes) (r : Regs) (a n : ℕ) (t : ReadTable) : Prop :=
  n = 0 ∨ t.maxQuantity < n ∨
    (t.size sz < a + n ∧ ¬ t.Reaches sz ((a + 1) % 2 ^ 16) n) ∨
    (a + n ≤ t.size sz ∧ t.Reaches sz ((a + 1) % 2 ^ 16) n ∧
      ∀ i < n, t.elem r ((a + 1) % 2 ^ 16 + i) = t.elem r (a + i))

/-- Reads of the holding registers go wrong when the quantity has its high byte set
and the low byte alone makes a request that is served. -/
def ReadsAsAsked (sz : RegSizes) (r : Regs) (a n : ℕ) : ReadTable → Prop
  | .holding => ¬ (256 ≤ n ∧ 1 ≤ n % 256 ∧ n % 256 ≤ 125 ∧ a + n % 256 ≤ sz.holdingNRegs)
  | t => ShiftUnnoticed sz r a n t

theorem addressedFromZero_iff_shifted {t : ReadTable} (ht : t ≠ .holding) (sz : RegSizes) (s : Slave)
    (f : ℕ → U8) :
    AddressedFromZero t sz s f ↔
      ShiftUnnoticed sz s.regs (pduWord f 1).toNat (pduWord f 3).toNat t := by
  have hans := handler_answers t sz s f
  have hq : t.quantity (pduWord f 3).toNat = (pduWord f 3).toNat := by
    cases t <;> first | rfl | exact absurd rfl ht
  have hb : t.first (pduWord f 1).toNat = ((pduWord f 1).toNat + 1) % 2 ^ 16 := by
    cases t <;> first | rfl | exact absurd rfl ht
  rw [hq, hb] at hans
  simp only [AddressedFromZero, ShiftUnnoticed, hans.accepts]
  generalize t.handler sz s f 5 = out at hans
  generalize (pduWord f 1).toNat = a at hans ⊢
  generalize (pduWord f 3).toNat = n at hans ⊢
  by_cases hacc : (1 ≤ n ∧ n ≤ t.maxQuantity) ∧ t.Reaches sz ((a + 1) % 2 ^ 16) n
  · obtain ⟨⟨h1, h2⟩, hR⟩ := id hacc
    rw [returns_iff (hans.returns hacc)]
    refine ⟨fun h => ?_, fun h => ⟨fun _ => ⟨h1, ?_⟩, fun _ _ _ => hacc⟩⟩
    · obtain ⟨-, hin, heq⟩ := h.1 hacc
      exact Or.inr (Or.inr (Or.inr ⟨hin, hR, heq⟩))
    · rcases h with h0 | hmax | ⟨-, hno⟩ | ⟨hin, -, heq⟩
      · omega
      · omega
      · exact absurd hR hno
      · exact ⟨hin, heq⟩
  · refine ⟨fun h => ?_, fun h => ⟨fun h' => absurd h' hacc, fun h1 h2 hin => ?_⟩⟩
    · by_cases h0 : n = 0
      · exact Or.inl h0
      by_cases hmax : t.maxQuantity < n
      · exact Or.inr (Or.inl hmax)
      refine Or.inr (Or.inr (Or.inl ⟨?_, fun hR => hacc ⟨⟨by omega, by omega⟩, hR⟩⟩))
      by_contra hin
      exact hacc (h.2 (by omega) (by omega) (by omega))
    · rcases h with h0 | hmax | ⟨hout, -⟩ | ⟨-, hR, -⟩
      · omega
      · omega
      · omega
      · exact ⟨⟨h1, h2⟩, hR⟩

theorem addressedFromZero_iff_holding (sz : RegSizes) (s : Slave) (f : ℕ → U8) :
    AddressedFromZero .holding sz s f ↔
      ReadsAsAsked sz s.regs (pduWord f 1).toNat (pduWord f 3).toNat .holding := by
  have hans := handler_answers .holding sz s f
  simp only [AddressedFromZero, ReadsAsAsked, hans.accepts]
  generalize ReadTable.holding.handler sz s f 5 = out at hans
  generalize (pduWord f 1).toNat = a at hans ⊢
  generalize (pduWord f 3).toNat = n at hans ⊢
  simp only [ReadTable.quantity, ReadTable.first, ReadTable.maxQuantity, ReadTable.Reaches,
    ReadTable.size] at hans ⊢
  refine ⟨fun h hbad => ?_, fun hok => ⟨fun hacc => ?_, fun h1 h2 h3 => ?_⟩⟩
  · have hacc : (1 ≤ n % 256 ∧ n % 256 ≤ 125) ∧ a + n % 256 ≤ sz.holdingNRegs :=
      ⟨⟨hbad.2.1, hbad.2.2.1⟩, hbad.2.2.2⟩
    have hlen := (h.1 hacc).2.2.1
    rw [(hans.returns hacc).1] at hlen
    simp only [ReadTable.dataBytes] at hlen
    omega
  · have hn : n % 256 = n := by
      by_contra hne
      exact hok ⟨by omega, hacc.1.1, hacc.1.2, hacc.2⟩
    have hret := hans.returns hacc
    rw [hn] at hacc hret
    exact ⟨hacc.1.1, hacc.2, hret⟩
  · have hn : n % 256 = n := by omega
    rw [hn]
    exact ⟨⟨h1, h2⟩, h3⟩

/-- For every read request of the right length the answer is addressed from zero
exactly when the shift by one, or the dropped high byte, makes no difference. -/
theorem addressedFromZero_iff (t : ReadTable) (sz : RegSizes) (s : Slave) (pucFrame : ℕ → U8) :
    AddressedFromZero t sz s pucFrame ↔
      ReadsAsAsked sz s.regs (pduWord pucFrame 1).toNat (pduWord pucFrame 3).toNat t := by
  cases t with
  | holding => exact addressedFromZero_iff_holding sz s pucFrame
  | coils => exact addressedFromZero_iff_shifted (t := .coils) (by decide) sz s pucFrame
  | discrete => exact addressedFromZero_iff_shifted (t := .discrete) (by decide) sz s pucFrame
  | input => exact addressedFromZero_iff_shifted (t := .input) (by decide) sz s pucFrame

/-- Function code 04 for register 0 of the table of `modbus.c` returns register 1. -/
theorem not_addressedFromZero :
    ¬ ∀ (t : ReadTable) (sz : RegSizes) (s : Slave) (pucFrame : ℕ → U8),
      AddressedFromZero t sz s pucFrame := by
  intro hall
  have h := hall .input regSizes Slave.start (blit (fun _ => 0) 0 [4, 0, 0, 0, 1])
  obtain ⟨-, -, -, hdata⟩ := h.1 (by decide)
  exact absurd (hdata 0 (by decide)) (by decide)

end Stm32F407
