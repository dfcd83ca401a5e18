import Stm32F407.Spec.Word

/-! The lists of `list.c` and `list.h`: rings of items with an end marker in each.
`κ` are the lists and `ι` the items; the fields of all of them together are the memory
that the functions work on. The integrity check values are configured away. -/

namespace Stm32F407

/-- A node of a ring: the marker inside a `List_t`, or a `ListItem_t`. -/
inductive ListNode (κ ι : Type) where
  | xListEnd (pxList : κ)
  | item (i : ι)
  deriving DecidableEq

/-- The fields of the lists and of their nodes. `pvOwner` never changes, so the item
stands for its owner. -/
structure Lists (κ ι : Type) where
  pxNext : ListNode κ ι → ListNode κ ι
  pxPrevious : ListNode κ ι → ListNode κ ι
  xItemValue : ListNode κ ι → U32
  pxContainer : ι → Option κ
  pxIndex : κ → ListNode κ ι
  uxNumberOfItems : κ → ℕ

def portMAX_DELAY : U32 := 0xFFFFFFFF

namespace Lists

variable {κ ι : Type} [DecidableEq κ] [DecidableEq ι]

def vListInitialise (m : Lists κ ι) (pxList : κ) : Lists κ ι :=
  { m with
    pxIndex := Function.update m.pxIndex pxList (.xListEnd pxList)
    xItemValue := Function.update m.xItemValue (.xListEnd pxList) portMAX_DELAY
    pxNext := Function.update m.pxNext (.xListEnd pxList) (.xListEnd pxList)
    pxPrevious := Function.update m.pxPrevious (.xListEnd pxList) (.xListEnd pxList)
    uxNumberOfItems := Function.update m.uxNumberOfItems pxList 0 }

structure IsInitialised (m : Lists κ ι) (l : κ) : Prop where
  index : m.pxIndex l = .xListEnd l
  value : m.xItemValue (.xListEnd l) = portMAX_DELAY
  next : m.pxNext (.xListEnd l) = .xListEnd l
  prev : m.pxPrevious (.xListEnd l) = .xListEnd l
  count : m.uxNumberOfItems l = 0

def vListInitialiseItem (m : Lists κ ι) (pxItem : ι) : Lists κ ι :=
  { m with pxContainer := Function.update m.pxContainer pxItem none }

def listSET_LIST_ITEM_VALUE (m : Lists κ ι) (pxItem : ι) (xValue : U32) : Lists κ ι :=
  { m with xItemValue := Function.update m.xItemValue (.item pxItem) xValue }

def listGET_LIST_ITEM_VALUE (m : Lists κ ι) (pxItem : ι) : U32 := m.xItemValue (.item pxItem)

def listLIST_IS_EMPTY (m : Lists κ ι) (pxList : κ) : Bool := m.uxNumberOfItems pxList = 0

def listCURRENT_LIST_LENGTH (m : Lists κ ι) (pxList : κ) : ℕ := m.uxNumberOfItems pxList

def listGET_HEAD_ENTRY (m : Lists κ ι) (pxList : κ) : ListNode κ ι := m.pxNext (.xListEnd pxList)

def listGET_ITEM_VALUE_OF_HEAD_ENTRY (m : Lists κ ι) (pxList : κ) : U32 :=
  m.xItemValue (m.listGET_HEAD_ENTRY pxList)

/-- `listINSERT_END` is the same as a macro. -/
def vListInsertEnd (m : Lists κ ι) (pxList : κ) (pxNewListItem : ι) : Lists κ ι :=
  let pxIndex := m.pxIndex pxList
  let pxBefore := m.pxPrevious pxIndex
  let pxNext := Function.update m.pxNext (.item pxNewListItem) pxIndex
  let pxPrevious := Function.update m.pxPrevious (.item pxNewListItem) pxBefore
  { m with
    pxNext := Function.update pxNext pxBefore (.item pxNewListItem)
    pxPrevious := Function.update pxPrevious pxIndex (.item pxNewListItem)
    pxContainer := Function.update m.pxContainer pxNewListItem (some pxList)
    uxNumberOfItems := Function.update m.uxNumberOfItems pxList (m.uxNumberOfItems pxList + 1) }

/-- The `for` loop of `vListInsert`; it takes at most one round for each item. -/
def insertPosition (m : Lists κ ι) (xValueOfInsertion : U32) (pxIterator : ListNode κ ι) :
    ℕ → ListNode κ ι
  | 0 => pxIterator
  | rounds + 1 =>
      if m.xItemValue (m.pxNext pxIterator) ≤ xValueOfInsertion then
        m.insertPosition xValueOfInsertion (m.pxNext pxIterator) rounds
      else pxIterator

def vListInsert (m : Lists κ ι) (pxList : κ) (pxNewListItem : ι) : Lists κ ι :=
  let xValueOfInsertion := m.xItemValue (.item pxNewListItem)
  let pxIterator :=
    if xValueOfInsertion = portMAX_DELAY then m.pxPrevious (.xListEnd pxList)
    else m.insertPosition xValueOfInsertion (.xListEnd pxList) (m.uxNumberOfItems pxList)
  let pxAfter := m.pxNext pxIterator
  let pxNext := Function.update m.pxNext (.item pxNewListItem) pxAfter
  let pxPrevious := Function.update m.pxPrevious pxAfter (.item pxNewListItem)
  { m with
    pxNext := Function.update pxNext pxIterator (.item pxNewListItem)
    pxPrevious := Function.update pxPrevious (.item pxNewListItem) pxIterator
    pxContainer := Function.update m.pxContainer pxNewListItem (some pxList)
    uxNumberOfItems := Function.update m.uxNumberOfItems pxList (m.uxNumberOfItems pxList + 1) }

/-- The number of items left in the list. An item that is in no list is not removed;
`listREMOVE_ITEM` is the same as a macro, without a result. -/
def uxListRemove (m : Lists κ ι) (pxItemToRemove : ι) : ℕ × Lists κ ι :=
  match m.pxContainer pxItemToRemove with
  | none => (0, m)
  | some pxList =>
      let x := ListNode.item pxItemToRemove
      let pxPrevious := Function.update m.pxPrevious (m.pxNext x) (m.pxPrevious x)
      let pxNext := Function.update m.pxNext (pxPrevious x) (m.pxNext x)
      let pxIndex :=
        if m.pxIndex pxList = x then Function.update m.pxIndex pxList (pxPrevious x) else m.pxIndex
      let left := m.uxNumberOfItems pxList - 1
      (left, { m with
        pxNext := pxNext
        pxPrevious := pxPrevious
        pxIndex := pxIndex
        pxContainer := Function.update m.pxContainer pxItemToRemove none
        uxNumberOfItems := Function.update m.uxNumberOfItems pxList left })

def listREMOVE_ITEM (m : Lists κ ι) (pxItemToRemove : ι) : Lists κ ι := (m.uxListRemove pxItemToRemove).2

/-- The entry that the index moves to, past the end marker. -/
def listGET_OWNER_OF_NEXT_ENTRY (m : Lists κ ι) (pxList : κ) : ListNode κ ι × Lists κ ι :=
  let pxIndex := m.pxNext (m.pxIndex pxList)
  let pxIndex := if pxIndex = .xListEnd pxList then m.pxNext pxIndex else pxIndex
  (pxIndex, { m with pxIndex := Function.update m.pxIndex pxList pxIndex })

end Lists

end Stm32F407
