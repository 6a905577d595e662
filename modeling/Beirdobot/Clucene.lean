import Beirdobot.Library.System
import Beirdobot.Libc
import Mathlib.Data.List.Perm.Basic
import Mathlib.Data.List.Nodup

/-!
# The search index

A transcription of `clucene_add`, `clucene_thread` and of what they call.  CLucene
itself is a parameter: which documents a term search hits, and in which order.
-/

namespace Beirdobot.Clucene

open Library

def searchWindow : ℕ := 15 * 60

/-- `IndexItem_t`.  The source does not use its `id`; here it tells the items apart. -/
structure IndexItem where
  id : ℕ
  chanid : ℕ
  nick : Option CString
  text : Option CString
  timestamp : ℕ
deriving DecidableEq

/-- An item with a text is a log entry, one without a text is a keepalive. -/
def IndexItem.isEntry (item : IndexItem) : Bool := item.text.isSome

/-- A field of a document.  The `nick` and `text` fields of a log entry are one. -/
inductive Field
  | timestamp (tb : ℕ)
  | chanid (chanid : ℕ)
  | entry (item : IndexItem)
deriving DecidableEq

abbrev Document := List Field

/-- The timestamp fields of a document. -/
def timestamps (doc : Document) : List ℕ :=
  doc.filterMap fun
    | .timestamp tb => some tb
    | _ => none

/-- The chanid fields of a document. -/
def chanids (doc : Document) : List ℕ :=
  doc.filterMap fun
    | .chanid c => some c
    | _ => none

/-- The log entries of a document. -/
def entries (doc : Document) : List IndexItem :=
  doc.filterMap fun
    | .entry item => some item
    | _ => none

/-- A search of CLucene for a term in the `timestamp` field: the documents that have it,
with the best hit first. -/
structure TermSearch where
  hits : List Document → ℕ → List ℕ
  mem_hits : ∀ index tb k, k ∈ hits index tb ↔ ∃ doc, index[k]? = some doc ∧ tb ∈ timestamps doc

/-- An element of `doc` with the element of `lasttb`. -/
abbrev Slot := Document × ℕ

/-- The queue, the index, the documents of the channels and the shutdown.  `accepted` are
the items that were queued with the time stamp they came with. -/
structure Index where
  indexQ : List IndexItem
  index : List Document
  slots : List Slot
  abort : Bool
  ended : Bool
  accepted : List (IndexItem × ℕ)
  nextId : ℕ

/-- `loadLogentry`, with what it leaves of the index and of the document. -/
def loadLogentry (lucene : TermSearch) (index : List Document) (doc : Document) (tb : ℕ) :
    List Document × Document × Bool :=
  match (lucene.hits index tb).head? with
  | none => (index, doc, false)
  | some k => (index.eraseIdx k, (index[k]?).getD [], true)

/-- The two fields of a log entry: copying a string that is null crashes. -/
def addFields (doc : Document) (item : IndexItem) : Option Document :=
  if item.nick.isSome ∧ item.text.isSome then some (doc ++ [.entry item]) else none

/-- Writing the document that is open, with what is left of it. -/
def writeOpen (index : List Document) (slot : Slot) : List Document × Document :=
  if slot.2 ≠ 0 then (index ++ [slot.1], []) else (index, slot.1)

/-- The document of the bucket of an item, loaded or new. -/
def loadOrNew (lucene : TermSearch) (index : List Document) (doc : Document) (item : IndexItem) :
    List Document × Document :=
  let (index, doc, found) := loadLogentry lucene index doc item.timestamp
  (index, if found then doc else doc ++ [.timestamp item.timestamp, .chanid item.chanid])

/-- `addLogentry`, where the bucket of the item is not the one that is open. -/
def openBucket (lucene : TermSearch) (index : List Document) (slot : Slot) (item : IndexItem) :
    Option (List Document × Slot) :=
  let (index, doc) := writeOpen index slot
  if item.text.isNone then some (index, doc, 0)
  else
    let (index, doc) := loadOrNew lucene index doc item
    (addFields doc item).map fun doc ↦ (index, doc, item.timestamp)

/-- `addLogentry` -/
def addLogentry (lucene : TermSearch) (index : List Document) (slot : Slot) (item : IndexItem) :
    Option (List Document × Slot) :=
  if slot.2 ≠ item.timestamp then openBucket lucene index slot item
  else (addFields slot.1 item).map fun doc ↦ (index, doc, slot.2)

/-- The documents of `clucene_thread`, with new ones up to a channel. -/
def growSlots (slots : List Slot) (chanid : ℕ) : List Slot :=
  slots ++ List.replicate (chanid - slots.length) ([], 0)

/-- What can happen. -/
inductive Event
  | add (chanid : ℕ) (nick text : Option CString) (timestamp : ℕ)
  | process
  | abort
  | finish

/-- `clucene_add` -/
def cluceneAdd (s : Index) (chanid : ℕ) (nick text : Option CString) (timestamp : ℕ) : Index :=
  let item : IndexItem :=
    { id := s.nextId, chanid, nick, text, timestamp := timestamp / searchWindow }
  { s with
    indexQ := s.indexQ ++ [item]
    accepted := s.accepted ++ [(item, timestamp)]
    nextId := s.nextId + 1 }

/-- A turn of the loop of `clucene_thread`. -/
def process (lucene : TermSearch) (s : Index) : Option Index :=
  match s.indexQ with
  | [] => none
  | item :: rest => do
      let slots := growSlots s.slots item.chanid
      let slot ← slots[item.chanid - 1]?
      let (index, slot) ← addLogentry lucene s.index slot item
      some { s with indexQ := rest, index, slots := slots.set (item.chanid - 1) slot }

/-- The end of `clucene_thread`. -/
def finish (s : Index) : Index :=
  { s with
    index := s.index ++ (s.slots.filter fun slot ↦ slot.2 ≠ 0).map Prod.fst
    slots := []
    ended := true }

/-- `clucene_thread` and the threads that log, with channel numbers from 1 on. -/
def cluceneThread (lucene : TermSearch) : System Index Event where
  init s := s.indexQ = [] ∧ s.slots = [] ∧ s.abort = false ∧ s.ended = false ∧ s.accepted = [] ∧
    (∀ doc ∈ s.index, (chanids doc).length = 1 ∧ (timestamps doc).length = 1) ∧
    (s.index.flatMap entries).Nodup ∧ ∀ item ∈ s.index.flatMap entries, item.id < s.nextId
  step s
    | .add chanid nick text timestamp =>
        if chanid = 0 then none else some (cluceneAdd s chanid nick text timestamp)
    | .process => if s.ended then none else process lucene s
    | .abort => some { s with abort := true }
    | .finish => if s.abort ∧ ¬ s.ended then some (finish s) else none

/-- The document is the one of a channel and a bucket. -/
structure Filed (doc : Document) (chanid tb : ℕ) : Prop where
  chanids : chanids doc = [chanid]
  timestamps : timestamps doc = [tb]

/-- Every accepted log entry is in one document, that of its channel and its bucket. -/
def Indexed (s : Index) : Prop :=
  s.ended = true → ∀ a ∈ s.accepted, a.1.isEntry = true →
    ∃ doc, (s.index.filter fun doc ↦ a.1 ∈ entries doc) = [doc] ∧
      Filed doc a.1.chanid (a.2 / searchWindow)

/-- The document that a search finds. -/
def found (lucene : TermSearch) (index : List Document) (tb : ℕ) : Option Document :=
  (lucene.hits index tb).head?.bind fun k ↦ index[k]?

/-- The channel and the bucket of a log entry that opens a bucket are not those of the
document of another channel. -/
def Own (lucene : TermSearch) (index : List Document) (slot : Slot) (item : IndexItem) : Prop :=
  item.isEntry = true → slot.2 ≠ item.timestamp →
    ∀ doc ∈ found lucene (writeOpen index slot).1 item.timestamp, item.chanid ∈ chanids doc

/-- Log entries are from after the first bucket and are queued before the thread ends, a
bucket is not opened with the document of another channel, and the thread ends with no
log entry left in the queue. -/
def Careful (lucene : TermSearch) (s : Index) : Event → Prop
  | .add _ _ text timestamp => text.isSome = true → searchWindow ≤ timestamp ∧ s.ended = false
  | .process =>
      ∀ item ∈ s.indexQ.head?, ∀ slot ∈ (growSlots s.slots item.chanid)[item.chanid - 1]?,
        Own lucene s.index slot item
  | .abort => True
  | .finish => ∀ item ∈ s.indexQ, item.isEntry = false

/-! ## The fields of a document -/

section Fields

variable (doc doc' : Document) (item : IndexItem) (n m : ℕ)

@[simp] theorem timestamps_append : timestamps (doc ++ doc') = timestamps doc ++ timestamps doc' :=
  List.filterMap_append

@[simp] theorem chanids_append : chanids (doc ++ doc') = chanids doc ++ chanids doc' :=
  List.filterMap_append

@[simp] theorem entries_append : entries (doc ++ doc') = entries doc ++ entries doc' :=
  List.filterMap_append

@[simp] theorem timestamps_entry : timestamps [.entry item] = [] := rfl
@[simp] theorem chanids_entry : chanids [.entry item] = [] := rfl
@[simp] theorem entries_entry : entries [.entry item] = [item] := rfl
@[simp] theorem entries_nil : entries [] = [] := rfl

theorem filed_new : Filed [.timestamp n, .chanid m] m n := ⟨rfl, rfl⟩

end Fields

/-- A document with the log entries of its channel and its bucket, as far as they are
from this run: their numbers start at `first`. -/
structure Right (first : ℕ) (doc : Document) (chanid tb : ℕ) : Prop where
  filed : Filed doc chanid tb
  entries : ∀ item ∈ entries doc, first ≤ item.id → item.chanid = chanid ∧ item.timestamp = tb

/-- The document that is open for a channel: none, or one of its bucket. -/
def SlotRight (first chanid : ℕ) (slot : Slot) : Prop :=
  slot.2 = 0 ∧ slot.1 = [] ∨ slot.2 ≠ 0 ∧ Right first slot.1 chanid slot.2

/-- The documents that are stored. -/
def StoredRight (first : ℕ) (index : List Document) : Prop :=
  ∀ doc ∈ index, ∃ chanid tb, Right first doc chanid tb

theorem Right.addFields {first chanid tb : ℕ} {doc doc' : Document} {item : IndexItem}
    (h : Right first doc chanid tb) (hc : item.chanid = chanid) (htb : item.timestamp = tb)
    (he : addFields doc item = some doc') : Right first doc' chanid tb := by
  rw [Clucene.addFields] at he
  split at he
  · cases he
    refine ⟨⟨?_, ?_⟩, ?_⟩
    · rw [chanids_append, h.filed.chanids, chanids_entry, List.append_nil]
    · rw [timestamps_append, h.filed.timestamps, timestamps_entry, List.append_nil]
    · intro item' hmem hfirst
      rw [entries_append, entries_entry] at hmem
      rcases List.mem_append.mp hmem with hmem | hmem
      · exact h.entries item' hmem hfirst
      · rw [List.mem_singleton.mp hmem]
        exact ⟨hc, htb⟩
  · cases he

theorem addFields_eq {doc doc' : Document} {item : IndexItem} (he : addFields doc item = some doc') :
    item.isEntry = true ∧ doc' = doc ++ [.entry item] := by
  rw [addFields] at he
  split at he
  · rename_i hsome
    cases he
    exact ⟨hsome.2, rfl⟩
  · cases he

/-! ## One item -/

/-- Writing the open document leaves none. -/
theorem writeOpen_right {first chanid : ℕ} {index : List Document} {slot : Slot}
    (hstored : StoredRight first index) (hslot : SlotRight first chanid slot) :
    (writeOpen index slot).2 = [] ∧ StoredRight first (writeOpen index slot).1 ∧
      ((writeOpen index slot).1.flatMap entries).Perm (entries slot.1 ++ index.flatMap entries) := by
  obtain ⟨doc, tb⟩ := slot
  rcases hslot with ⟨htb, hdoc⟩ | ⟨htb, hright⟩
  · change tb = 0 at htb
    change doc = [] at hdoc
    subst htb hdoc
    exact ⟨rfl, hstored, .refl _⟩
  · rw [writeOpen, if_pos htb]
    refine ⟨rfl, ?_, ?_⟩
    · intro doc' hdoc'
      rcases List.mem_append.mp hdoc' with hdoc' | hdoc'
      · exact hstored doc' hdoc'
      · rw [List.mem_singleton.mp hdoc']
        exact ⟨chanid, tb, hright⟩
    · rw [List.flatMap_append, List.flatMap_singleton]
      exact List.perm_append_comm

/-- The document of the bucket of an item is the one of its channel. -/
theorem loadOrNew_right {first : ℕ} {lucene : TermSearch} {index : List Document} {item : IndexItem}
    (hstored : StoredRight first index)
    (hown : ∀ doc ∈ found lucene index item.timestamp, item.chanid ∈ chanids doc) :
    StoredRight first (loadOrNew lucene index [] item).1 ∧
      Right first (loadOrNew lucene index [] item).2 item.chanid item.timestamp ∧
      (entries (loadOrNew lucene index [] item).2 ++
        (loadOrNew lucene index [] item).1.flatMap entries).Perm (index.flatMap entries) := by
  cases hhead : (lucene.hits index item.timestamp).head? with
  | none =>
      rw [loadOrNew, loadLogentry, hhead]
      exact ⟨hstored, ⟨filed_new _ _, fun _ hmem ↦ absurd hmem List.not_mem_nil⟩, .refl _⟩
  | some k =>
      obtain ⟨doc, hdoc, htb⟩ :=
        (lucene.mem_hits index item.timestamp k).mp (List.mem_of_mem_head? hhead)
      have hc : item.chanid ∈ chanids doc := by
        refine hown doc ?_
        rw [found, hhead]
        exact hdoc
      obtain ⟨chanid, tb, hright⟩ := hstored doc (List.mem_of_getElem? hdoc)
      rw [hright.filed.chanids, List.mem_singleton] at hc
      rw [hright.filed.timestamps, List.mem_singleton] at htb
      obtain ⟨hk, rfl⟩ := List.getElem?_eq_some_iff.mp hdoc
      rw [loadOrNew, loadLogentry, hhead, hc, htb]
      simp only [hdoc, Option.getD_some, if_true]
      refine ⟨fun doc hmem ↦ hstored doc (List.mem_of_mem_eraseIdx hmem), hright, ?_⟩
      rw [← List.flatMap_cons]
      exact (List.getElem_cons_eraseIdx_perm hk).flatMap_right entries

/-- `addLogentry` puts a log entry into the document of its channel and its bucket, and
loses nothing. -/
theorem addLogentry_right {first : ℕ} {lucene : TermSearch} {index index' : List Document}
    {slot slot' : Slot} {item : IndexItem} (hstored : StoredRight first index)
    (hslot : SlotRight first item.chanid slot) (hbucket : item.isEntry = true → item.timestamp ≠ 0)
    (hown : Own lucene index slot item)
    (he : addLogentry lucene index slot item = some (index', slot')) :
    StoredRight first index' ∧ SlotRight first item.chanid slot' ∧
      (entries slot'.1 ++ index'.flatMap entries).Perm
        ([item].filter IndexItem.isEntry ++ (entries slot.1 ++ index.flatMap entries)) := by
  have hadd : ∀ (doc : Document) (rest : List IndexItem),
      (entries (doc ++ [.entry item]) ++ rest).Perm (item :: (entries doc ++ rest)) := by
    intro doc rest
    rw [entries_append, entries_entry, List.append_assoc, List.singleton_append]
    exact List.perm_middle
  rw [addLogentry] at he
  split at he
  · rename_i hne
    obtain ⟨hnil, hstored', hperm⟩ := writeOpen_right hstored hslot
    simp only [openBucket, hnil] at he
    split at he
    · rename_i htext
      cases he
      have hkeep : item.isEntry = false := by
        rw [IndexItem.isEntry, Option.isNone_iff_eq_none.mp htext]
        rfl
      rw [List.filter_singleton, hkeep]
      exact ⟨hstored', .inl ⟨rfl, rfl⟩, hperm⟩
    · obtain ⟨doc, hdoc, he⟩ := Option.map_eq_some_iff.mp he
      cases he
      obtain ⟨hentry, rfl⟩ := addFields_eq hdoc
      obtain ⟨hstored'', hright, hperm'⟩ := loadOrNew_right hstored' (hown hentry hne)
      rw [List.filter_singleton, hentry]
      exact ⟨hstored'', .inr ⟨hbucket hentry, hright.addFields rfl rfl hdoc⟩,
        (hadd _ _).trans ((hperm'.trans hperm).cons item)⟩
  · rename_i heq
    obtain ⟨doc, hdoc, he⟩ := Option.map_eq_some_iff.mp he
    cases he
    obtain ⟨hentry, rfl⟩ := addFields_eq hdoc
    have htb : slot.2 = item.timestamp := not_not.mp heq
    rw [List.filter_singleton, hentry]
    refine ⟨hstored, ?_, hadd _ _⟩
    rcases hslot with ⟨hzero, -⟩ | ⟨hne, hright⟩
    · exact absurd (htb.symm.trans hzero) (hbucket hentry)
    · exact .inr ⟨hne, hright.addFields rfl htb.symm hdoc⟩

/-! ## Every run -/

/-- The log entries of the open documents. -/
def opened (slots : List Slot) : List IndexItem := slots.flatMap fun slot ↦ entries slot.1

/-- The documents that are open are those of their channels. -/
def SlotsRight (first : ℕ) (slots : List Slot) : Prop :=
  ∀ i slot, slots[i]? = some slot → SlotRight first (i + 1) slot

/-- All log entries: queued, in an open document, or in the index. -/
def held (s : Index) : List IndexItem :=
  s.indexQ.filter IndexItem.isEntry ++ (opened s.slots ++ s.index.flatMap entries)

theorem opened_growSlots (slots : List Slot) (chanid : ℕ) :
    opened (growSlots slots chanid) = opened slots := by
  rw [opened, growSlots, List.flatMap_append]
  have hnil : ∀ n : ℕ, (List.replicate n (([], 0) : Slot)).flatMap (fun slot ↦ entries slot.1) = [] := by
    intro n
    rw [List.flatMap_eq_nil_iff]
    intro slot hslot
    rw [List.eq_of_mem_replicate hslot]
    rfl
  rw [hnil, List.append_nil]
  rfl

theorem SlotsRight.growSlots {first : ℕ} {slots : List Slot} (h : SlotsRight first slots)
    (chanid : ℕ) : SlotsRight first (growSlots slots chanid) := by
  intro i slot hi
  rw [Clucene.growSlots, List.getElem?_append] at hi
  split at hi
  · exact h i slot hi
  · rw [List.eq_of_mem_replicate (List.mem_of_getElem? hi)]
    exact .inl ⟨rfl, rfl⟩

theorem SlotsRight.set {first i : ℕ} {slots : List Slot} {slot : Slot} (h : SlotsRight first slots)
    (hslot : SlotRight first (i + 1) slot) : SlotsRight first (slots.set i slot) := by
  intro j slot' hj
  by_cases hij : i = j
  · subst hij
    rw [List.getElem?_set_self'] at hj
    obtain ⟨_, -, rfl⟩ := Option.map_eq_some_iff.mp hj
    exact hslot
  · rw [List.getElem?_set_ne hij] at hj
    exact h j slot' hj

/-- What changing one document does to the log entries of all. -/
theorem opened_set {slots : List Slot} {i : ℕ} {slot : Slot} (hi : slots[i]? = some slot) :
    ∃ others, (opened slots).Perm (entries slot.1 ++ others) ∧
      ∀ slot' : Slot, (opened (slots.set i slot')).Perm (entries slot'.1 ++ others) := by
  obtain ⟨hlt, rfl⟩ := List.getElem?_eq_some_iff.mp hi
  have hold := (List.getElem_cons_eraseIdx_perm hlt).symm
  refine ⟨opened (slots.eraseIdx i), hold.flatMap_right fun slot : Slot ↦ entries slot.1, ?_⟩
  intro slot'
  have hlt' : i < (slots.set i slot').length := by rwa [List.length_set]
  have hnew := (List.getElem_cons_eraseIdx_perm hlt').symm
  rw [List.getElem_set_self, List.eraseIdx_set_eq] at hnew
  exact hnew.flatMap_right fun slot : Slot ↦ entries slot.1

/-- The invariant. -/
structure Kept (first : ℕ) (s : Index) : Prop where
  queued : ∀ item ∈ s.indexQ, 1 ≤ item.chanid ∧ (item.isEntry = true → item.timestamp ≠ 0)
  stored : StoredRight first s.index
  slots : SlotsRight first s.slots
  nodup : (held s).Nodup
  fresh : ∀ item ∈ held s, item.id < s.nextId
  first_le : first ≤ s.nextId
  accepted : ∀ a ∈ s.accepted, a.1.timestamp = a.2 / searchWindow ∧ first ≤ a.1.id ∧
    (a.1.isEntry = true → a.1 ∈ held s)
  ended : s.ended = true → s.slots = [] ∧ ∀ item ∈ s.indexQ, item.isEntry = false

namespace Kept

variable {first : ℕ} {s s' : Index}

/-- A step that only moves log entries on. -/
theorem moved (h : Kept first s) (hheld : (held s').Perm (held s)) (hid : s'.nextId = s.nextId)
    (haccepted : s'.accepted = s.accepted) :
    (held s').Nodup ∧ (∀ item ∈ held s', item.id < s'.nextId) ∧ first ≤ s'.nextId ∧
      ∀ a ∈ s'.accepted, a.1.timestamp = a.2 / searchWindow ∧ first ≤ a.1.id ∧
        (a.1.isEntry = true → a.1 ∈ held s') := by
  rw [hid, haccepted]
  refine ⟨hheld.nodup_iff.mpr h.nodup, fun item hitem ↦ h.fresh item (hheld.mem_iff.mp hitem),
    h.first_le, ?_⟩
  intro a ha
  obtain ⟨htb, hfirst, hmem⟩ := h.accepted a ha
  exact ⟨htb, hfirst, fun hentry ↦ hheld.mem_iff.mpr (hmem hentry)⟩

theorem cluceneAdd (h : Kept first s) {chanid timestamp : ℕ} {nick text : Option CString}
    (hc : 1 ≤ chanid)
    (hcareful : text.isSome = true → searchWindow ≤ timestamp ∧ s.ended = false) :
    Kept first (cluceneAdd s chanid nick text timestamp) := by
  obtain ⟨item, hitem⟩ : ∃ item : IndexItem, item =
    { id := s.nextId, chanid, nick, text, timestamp := timestamp / searchWindow } := ⟨_, rfl⟩
  have hheld : (held (Clucene.cluceneAdd s chanid nick text timestamp)).Perm
      ([item].filter IndexItem.isEntry ++ held s) := by
    rw [held, held, Clucene.cluceneAdd, ← hitem, List.filter_append, List.append_assoc]
    exact List.perm_append_comm_assoc ..
  have hsub : ∀ item' ∈ [item].filter IndexItem.isEntry ++ held s,
      item'.id = s.nextId ∨ item' ∈ held s := by
    intro item' hmem
    rcases List.mem_append.mp hmem with hmem | hmem
    · rw [List.mem_singleton.mp (List.mem_of_mem_filter hmem), hitem]
      exact .inl rfl
    · exact .inr hmem
  have hqueued : ∀ item' ∈ s.indexQ ++ [item],
      1 ≤ item'.chanid ∧ (item'.isEntry = true → item'.timestamp ≠ 0) := by
    intro item' hmem
    rcases List.mem_append.mp hmem with hmem | hmem
    · exact h.queued item' hmem
    · rw [List.mem_singleton.mp hmem, hitem]
      refine ⟨hc, fun hentry ↦ ?_⟩
      exact Nat.ne_of_gt (Nat.div_pos (hcareful hentry).1 (by decide))
  rw [hitem] at hqueued
  refine ⟨hqueued, h.stored, h.slots, hheld.nodup_iff.mpr ?_, ?_,
    Nat.le_succ_of_le h.first_le, ?_, ?_⟩
  · refine List.nodup_append.mpr ⟨(List.nodup_singleton item).filter _, h.nodup, ?_⟩
    intro new hnew old hold heq
    have hlt := h.fresh old hold
    rw [← heq, List.mem_singleton.mp (List.mem_of_mem_filter hnew), hitem] at hlt
    exact Nat.lt_irrefl _ hlt
  · intro item' hmem
    rcases hsub item' (hheld.mem_iff.mp hmem) with hid | hold
    · exact Nat.lt_succ_of_le (Nat.le_of_eq hid)
    · exact Nat.lt_succ_of_lt (h.fresh item' hold)
  · intro a ha
    rcases List.mem_append.mp ha with ha | ha
    · obtain ⟨htb, hfirst, hmem⟩ := h.accepted a ha
      exact ⟨htb, hfirst, fun hentry ↦
        hheld.mem_iff.mpr (List.mem_append_right _ (hmem hentry))⟩
    · rw [List.mem_singleton.mp ha, ← hitem]
      refine ⟨by rw [hitem], by rw [hitem]; exact h.first_le, fun hentry ↦ ?_⟩
      refine hheld.mem_iff.mpr (List.mem_append_left _ ?_)
      exact List.mem_filter.mpr ⟨List.mem_cons_self, hentry⟩
  · intro hended
    obtain ⟨hslots, hnone⟩ := h.ended hended
    refine ⟨hslots, fun item' hmem ↦ ?_⟩
    rcases List.mem_append.mp hmem with hmem | hmem
    · exact hnone item' hmem
    · rw [List.mem_singleton.mp hmem]
      refine Bool.eq_false_iff.mpr fun hentry ↦ ?_
      have hopen := (hcareful hentry).2
      change s.ended = true at hended
      rw [hopen] at hended
      cases hended

theorem process (h : Kept first s) {lucene : TermSearch} (hended : s.ended = false)
    (hcareful : Careful lucene s .process) (he : process lucene s = some s') : Kept first s' := by
  cases hq : s.indexQ with
  | nil =>
      rw [Clucene.process, hq] at he
      cases he
  | cons item rest =>
      rw [Clucene.process, hq] at he
      obtain ⟨slot, hslot, he⟩ := Option.bind_eq_some_iff.mp he
      obtain ⟨⟨index, slot'⟩, hadd, he⟩ := Option.bind_eq_some_iff.mp he
      cases he
      obtain ⟨hc, hbucket⟩ := h.queued item (by rw [hq]; exact List.mem_cons_self)
      have hgrown : SlotsRight first (growSlots s.slots item.chanid) := h.slots.growSlots _
      have hright : SlotRight first item.chanid slot := by
        have := hgrown _ _ hslot
        rwa [Nat.sub_add_cancel hc] at this
      have hown : Own lucene s.index slot item :=
        hcareful item (by rw [hq]; exact rfl) slot hslot
      obtain ⟨hstored, hright', hperm⟩ := addLogentry_right h.stored hright hbucket hown hadd
      obtain ⟨others, hold, hnew⟩ := opened_set hslot
      rw [opened_growSlots] at hold
      have hslots : SlotsRight first ((growSlots s.slots item.chanid).set (item.chanid - 1) slot') := by
        refine hgrown.set ?_
        rwa [Nat.sub_add_cancel hc]
      have hheld : (held { s with
          indexQ := rest, index,
          slots := (growSlots s.slots item.chanid).set (item.chanid - 1) slot' }).Perm (held s) := by
        have hmoved : (opened ((growSlots s.slots item.chanid).set (item.chanid - 1) slot') ++
            index.flatMap entries).Perm
              ([item].filter IndexItem.isEntry ++ (opened s.slots ++ s.index.flatMap entries)) := by
          calc opened ((growSlots s.slots item.chanid).set (item.chanid - 1) slot') ++
                index.flatMap entries
            _ |>.Perm (others ++ (entries slot'.1 ++ index.flatMap entries)) := by
                rw [← List.append_assoc]
                exact ((hnew slot').trans List.perm_append_comm).append_right _
            _ |>.Perm (others ++ ([item].filter IndexItem.isEntry ++
                (entries slot.1 ++ s.index.flatMap entries))) := hperm.append_left others
            _ |>.Perm ([item].filter IndexItem.isEntry ++
                (others ++ (entries slot.1 ++ s.index.flatMap entries))) :=
              List.perm_append_comm_assoc ..
            _ |>.Perm ([item].filter IndexItem.isEntry ++
                (opened s.slots ++ s.index.flatMap entries)) := by
                refine List.Perm.append_left _ ?_
                rw [← List.append_assoc]
                exact (List.perm_append_comm.trans hold.symm).append_right _
        have hqueue : s.indexQ.filter IndexItem.isEntry =
            [item].filter IndexItem.isEntry ++ rest.filter IndexItem.isEntry := by
          rw [hq, ← List.filter_append, List.singleton_append]
        rw [held, held, hqueue, List.append_assoc]
        exact (hmoved.append_left _).trans (List.perm_append_comm_assoc ..)
      obtain ⟨hnodup, hfresh, hfirst, haccepted⟩ := h.moved hheld rfl rfl
      refine ⟨fun item' hmem ↦ h.queued item' ?_, hstored, hslots, hnodup, hfresh, hfirst,
        haccepted, ?_⟩
      · rw [hq]
        exact List.mem_cons_of_mem _ hmem
      · intro hend
        change s.ended = true at hend
        rw [hended] at hend
        cases hend

theorem finish (h : Kept first s) (hcareful : ∀ item ∈ s.indexQ, item.isEntry = false) :
    Kept first (finish s) := by
  have hwritten : ∀ slots : List Slot, SlotsRight first slots →
      ((slots.filter fun slot ↦ slot.2 ≠ 0).map Prod.fst).flatMap entries = opened slots := by
    intro slots hslots
    have hempty : ∀ slot ∈ slots, slot.2 = 0 → slot.1 = [] := by
      intro slot hmem hzero
      obtain ⟨i, hi⟩ := List.getElem?_of_mem hmem
      rcases hslots i slot hi with ⟨-, hnil⟩ | ⟨hne, -⟩
      · exact hnil
      · exact absurd hzero hne
    clear hslots
    induction slots with
    | nil => rfl
    | cons slot slots ih =>
        have ih := ih fun slot hmem ↦ hempty slot (List.mem_cons_of_mem _ hmem)
        rw [opened, List.flatMap_cons]
        by_cases hzero : slot.2 = 0
        · rw [List.filter_cons_of_neg (by simp [hzero]), ih, hempty slot List.mem_cons_self hzero]
          rfl
        · rw [List.filter_cons_of_pos (by simp [hzero]), List.map_cons, List.flatMap_cons, ih]
          rfl
  have hheld : (held (Clucene.finish s)).Perm (held s) := by
    rw [held, held, Clucene.finish, List.flatMap_append, hwritten s.slots h.slots]
    have hcomm : (s.index.flatMap entries ++ opened s.slots).Perm
        (opened s.slots ++ s.index.flatMap entries) := List.perm_append_comm
    exact List.Perm.append_left (s.indexQ.filter IndexItem.isEntry) hcomm
  obtain ⟨hnodup, hfresh, hfirst, haccepted⟩ := h.moved hheld rfl rfl
  refine ⟨h.queued, ?_, fun i slot hi ↦ absurd hi (by simp [Clucene.finish]), hnodup, hfresh, hfirst,
    haccepted, fun _ ↦ ⟨rfl, hcareful⟩⟩
  intro doc hdoc
  rcases List.mem_append.mp hdoc with hdoc | hdoc
  · exact h.stored doc hdoc
  · obtain ⟨slot, hslot, rfl⟩ := List.mem_map.mp hdoc
    obtain ⟨hmem, hne⟩ := List.mem_filter.mp hslot
    obtain ⟨i, hi⟩ := List.getElem?_of_mem hmem
    rcases h.slots i slot hi with ⟨hzero, -⟩ | ⟨-, hright⟩
    · exact absurd hzero (of_decide_eq_true hne)
    · exact ⟨i + 1, slot.2, hright⟩

/-- A log entry that is in the index is in one document, the right one. -/
theorem indexed (h : Kept first s) : Indexed s := by
  intro hended a ha hentry
  obtain ⟨hslots, hnone⟩ := h.ended hended
  obtain ⟨htb, hfirst, hmem⟩ := h.accepted a ha
  have hqueue : s.indexQ.filter IndexItem.isEntry = [] :=
    List.filter_eq_nil_iff.mpr fun item hitem ↦ by simp [hnone item hitem]
  have hheld : held s = s.index.flatMap entries := by
    rw [held, hqueue, hslots]
    rfl
  have hnodup := h.nodup
  rw [hheld] at hnodup
  have hmem := hmem hentry
  rw [hheld] at hmem
  obtain ⟨doc, hdoc, hin⟩ := List.mem_flatMap.mp hmem
  obtain ⟨chanid, tb, hright⟩ := h.stored doc hdoc
  obtain ⟨hc, ht⟩ := hright.entries a.1 hin hfirst
  refine ⟨doc, ?_, ?_⟩
  · obtain ⟨before, after, hindex⟩ := List.append_of_mem hdoc
    rw [hindex, List.flatMap_append, List.flatMap_cons] at hnodup
    have hbefore : ∀ doc' ∈ before, a.1 ∉ entries doc' := by
      intro doc' hmem' hin'
      have hdisj := (List.nodup_append.mp hnodup).2.2
      exact hdisj a.1 (List.mem_flatMap.mpr ⟨doc', hmem', hin'⟩) a.1
        (List.mem_append_left _ hin) rfl
    have hafter : ∀ doc' ∈ after, a.1 ∉ entries doc' := by
      intro doc' hmem' hin'
      have hdisj := (List.nodup_append.mp (List.nodup_append.mp hnodup).2.1).2.2
      exact hdisj a.1 hin a.1 (List.mem_flatMap.mpr ⟨doc', hmem', hin'⟩) rfl
    have hdoc : (doc :: after).filter (fun doc ↦ a.1 ∈ entries doc) =
        doc :: after.filter fun doc ↦ a.1 ∈ entries doc :=
      List.filter_cons_of_pos (by exact decide_eq_true hin)
    rw [hindex, List.filter_append, hdoc, List.filter_eq_nil_iff.mpr fun doc' hmem' ↦ by simpa using hbefore doc' hmem',
      List.filter_eq_nil_iff.mpr fun doc' hmem' ↦ by simpa using hafter doc' hmem']
    rfl
  · rw [← htb, hc, ht]
    exact hright.filed

end Kept

/-- In a run that is careful every accepted log entry is, at the end, in one document,
that of its channel and its bucket. -/
theorem cluceneThread_indexed {lucene : TermSearch} {s : Index}
    (h : (cluceneThread lucene).ReachableVia (Careful lucene) s) : Indexed s := by
  obtain ⟨first, hkept⟩ : ∃ first, Kept first s := by
    refine h.invariant (I := fun s ↦ ∃ first, Kept first s) ?_ ?_
    · rintro s ⟨hq, hslots, -, hended, haccepted, hfields, hnodup, hfresh⟩
      have hheld : held s = s.index.flatMap entries := by
        rw [held, hq, hslots]
        rfl
      refine ⟨s.nextId, ?_, ?_, ?_, hheld ▸ hnodup, hheld ▸ hfresh, Nat.le_refl _, ?_, ?_⟩
      · rw [hq]
        exact fun _ hmem ↦ absurd hmem List.not_mem_nil
      · intro doc hdoc
        obtain ⟨c, hc⟩ := List.length_eq_one_iff.mp (hfields doc hdoc).1
        obtain ⟨tb, htb⟩ := List.length_eq_one_iff.mp (hfields doc hdoc).2
        refine ⟨c, tb, ⟨hc, htb⟩, fun item hitem hfirst ↦ ?_⟩
        exact absurd (hfresh item (List.mem_flatMap.mpr ⟨doc, hdoc, hitem⟩)) (Nat.not_lt.mpr hfirst)
      · rw [hslots]
        exact fun i slot hi ↦ absurd hi (by simp)
      · rw [haccepted]
        exact fun _ hmem ↦ absurd hmem List.not_mem_nil
      · intro hend
        rw [hended] at hend
        cases hend
    · rintro s e s' ⟨first, hs⟩ hc he
      refine ⟨first, ?_⟩
      cases e with
      | add chanid nick text timestamp =>
          simp only [cluceneThread] at he
          split at he
          · cases he
          · rename_i hne
            cases he
            exact hs.cluceneAdd (Nat.one_le_iff_ne_zero.mpr hne) hc
      | process =>
          simp only [cluceneThread] at he
          split at he
          · cases he
          · rename_i hended
            exact hs.process (Bool.eq_false_iff.mpr hended) hc he
      | abort =>
          cases he
          exact ⟨hs.queued, hs.stored, hs.slots, hs.nodup, hs.fresh, hs.first_le, hs.accepted, hs.ended⟩
      | finish =>
          simp only [cluceneThread] at he
          split at he
          · cases he
            exact hs.finish hc
          · cases he
  exact hkept.indexed

/-- The hits in the order of the index. -/
def firstHits : TermSearch where
  hits index tb := (List.range index.length).filter fun k ↦
    (index[k]?).any fun doc ↦ (timestamps doc).contains tb
  mem_hits := by
    intro index tb k
    rw [List.mem_filter, List.mem_range, Option.any_eq_true_iff_get]
    constructor
    · rintro ⟨-, hsome, htb⟩
      exact ⟨_, (Option.some_get hsome).symm, List.contains_iff_mem.mp htb⟩
    · rintro ⟨doc, hdoc, htb⟩
      obtain ⟨hk, hget⟩ := List.getElem?_eq_some_iff.mp hdoc
      refine ⟨hk, by rw [hdoc]; rfl, ?_⟩
      simpa [hdoc] using htb

def emptyIndex : Index where
  indexQ := []
  index := []
  slots := []
  abort := false
  ended := false
  accepted := []
  nextId := 0

theorem emptyIndex_init (lucene : TermSearch) : (cluceneThread lucene).init emptyIndex :=
  ⟨rfl, rfl, rfl, rfl, rfl, fun _ h ↦ absurd h List.not_mem_nil, List.nodup_nil,
    fun _ h ↦ absurd h List.not_mem_nil⟩

/-- Two entries of a bucket and one of the next, all of one channel. -/
def oneChannel : List Event :=
  [.add 1 (some ['a']) (some ['x']) 1400000000, .add 1 (some ['b']) (some ['y']) 1400000010,
    .add 1 (some ['a']) (some ['z']) 1400000900, .process, .process, .process, .abort, .finish]

/-- Two channels in one bucket, where the first one is written before the second one
has an entry. -/
def twoChannels : List Event :=
  [.add 1 (some ['a']) (some ['x']) 1400000000, .add 1 none none 1555556,
    .add 2 (some ['b']) (some ['y']) 1400000100, .process, .process, .process, .abort, .finish]

instance (lucene : TermSearch) (index : List Document) (slot : Slot) (item : IndexItem) :
    Decidable (Own lucene index slot item) :=
  inferInstanceAs (Decidable (item.isEntry = true → slot.2 ≠ item.timestamp →
    ∀ doc ∈ found lucene (writeOpen index slot).1 item.timestamp, item.chanid ∈ chanids doc))

instance (lucene : TermSearch) (s : Index) (e : Event) : Decidable (Careful lucene s e) :=
  match e with
  | .add _ _ text timestamp =>
      inferInstanceAs (Decidable (text.isSome = true → searchWindow ≤ timestamp ∧ s.ended = false))
  | .process =>
      inferInstanceAs (Decidable (∀ item ∈ s.indexQ.head?,
        ∀ slot ∈ (growSlots s.slots item.chanid)[item.chanid - 1]?,
          Own lucene s.index slot item))
  | .abort => inferInstanceAs (Decidable True)
  | .finish => inferInstanceAs (Decidable (∀ item ∈ s.indexQ, item.isEntry = false))

/-- One channel alone, where the bucket changes and the last document is written at the end. -/
theorem cluceneThread_indexed_oneChannel :
    ∃ s, (cluceneThread firstHits).ReachableVia (Careful firstHits) s ∧ s.ended = true ∧
      s.index.length = 2 ∧ Indexed s := by
  have hrun : ∃ s, ((cluceneThread firstHits).guard fun s e ↦ decide (Careful firstHits s e)).run
      emptyIndex oneChannel = some s ∧ s.ended = true ∧ s.index.length = 2 :=
    ⟨_, rfl, rfl, rfl⟩
  obtain ⟨s, hs, hended, hlength⟩ := hrun
  have hreach := System.reachableVia_of_run (C := Careful firstHits)
    (fun _ _ ↦ of_decide_eq_true) (emptyIndex_init _) hs
  exact ⟨s, hreach, hended, hlength, cluceneThread_indexed hreach⟩

/-- The entry of the second channel ends up in the document of the first one. -/
theorem not_cluceneThread_indexed :
    ¬ ∀ (lucene : TermSearch) (s : Index), (cluceneThread lucene).Reachable s → Indexed s := by
  intro h
  obtain ⟨item, hitem⟩ : ∃ item : IndexItem, item =
    { id := 2, chanid := 2, nick := some ['b'], text := some ['y'], timestamp := 1555555 } :=
    ⟨_, rfl⟩
  have hrun : ∃ s, (cluceneThread firstHits).run emptyIndex twoChannels = some s ∧
      s.ended = true ∧ (item, 1400000100) ∈ s.accepted ∧
        ∀ doc ∈ s.index, chanids doc = [1] := by
    subst hitem
    exact ⟨_, rfl, rfl, by decide, by decide⟩
  obtain ⟨s, hs, hended, hmem, hone⟩ := hrun
  have hreach := System.reachable_of_run (emptyIndex_init _) hs
  obtain ⟨doc, hdoc, hfiled⟩ := h firstHits s hreach hended _ hmem (by rw [hitem]; rfl)
  have hin : doc ∈ s.index := by
    refine List.mem_of_mem_filter (p := fun doc ↦ item ∈ entries doc) ?_
    rw [hdoc]
    exact List.mem_cons_self
  have hchan := hfiled.chanids
  rw [hone doc hin, hitem] at hchan
  cases hchan

end Beirdobot.Clucene
