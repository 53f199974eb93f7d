import Chaosircd.CString
import Chaosircd.KeyedList

/-!
# Tables of named entries with a hash index

A table holds entries with distinct identifiers, some of which are users.  The
users are indexed by the hash of their name.  The index is *coherent* when the
bucket of a hash holds exactly the users with that hash, and the users are
*apart* when no two of them have the same name up to case and none has an empty
one.  Renaming, inserting and removing keep the index coherent always, and keep
the users apart when the name that is given is free.
-/

namespace Chaosircd

/-- What the nick index says about a client. -/
structure NickEntry where
  id : Nat
  isUser : Bool
  name : CString
  hash : Nat
  deriving DecidableEq

/-- A table of entries, the buckets of its index, and the identifier that the
next entry gets. -/
structure NickTable where
  entries : List NickEntry
  buckets : Nat → List Nat
  nextId : Nat

namespace NickTable

/-- The number of buckets. -/
def size : Nat := 32

/-- The entry with an identifier. -/
def entry? (table : NickTable) (id : Nat) : Option NickEntry :=
  table.entries.find? fun entry => entry.id = id

/-- Takes an identifier out of the bucket of a hash. -/
def unlink (buckets : Nat → List Nat) (hash id : Nat) : Nat → List Nat :=
  fun bucket =>
    if bucket = hash % size then (buckets bucket).filter (· ≠ id)
    else buckets bucket

/-- Puts an identifier at the head of the bucket of a hash. -/
def link (buckets : Nat → List Nat) (hash id : Nat) : Nat → List Nat :=
  fun bucket =>
    if bucket = hash % size then id :: buckets bucket else buckets bucket

/-- Gives an entry a new name. -/
def rename (table : NickTable) (id : Nat) (name : CString) : NickTable :=
  match table.entry? id with
  | none => table
  | some entry =>
      { table with
        entries := table.entries.map fun entry =>
          if entry.id = id then
            { entry with name := name, hash := strIhash name }
          else entry
        buckets :=
          if entry.isUser then
            link (unlink table.buckets entry.hash id) (strIhash name) id
          else table.buckets }

/-- Adds an entry under the next identifier. -/
def insert (table : NickTable) (isUser : Bool) (name : CString) : NickTable where
  entries := table.entries ++ [⟨table.nextId, isUser, name, strIhash name⟩]
  buckets :=
    if isUser then link table.buckets (strIhash name) table.nextId
    else table.buckets
  nextId := table.nextId + 1

/-- Removes an entry. -/
def remove (table : NickTable) (id : Nat) : NickTable :=
  match table.entry? id with
  | none => table
  | some entry =>
      { table with
        entries := table.entries.filter fun entry => entry.id ≠ id
        buckets :=
          if entry.isUser then unlink table.buckets entry.hash id
          else table.buckets }

/-- The entry answers to the name. -/
def Answers (entry : NickEntry) (name : CString) : Prop :=
  entry.name ≠ [] ∧ entry.hash = strIhash name ∧ IcmpEq entry.name name

instance (entry : NickEntry) (name : CString) :
    Decidable (Answers entry name) :=
  inferInstanceAs (Decidable (_ ∧ _))

/-- Finds an entry by name through the index. -/
def find (table : NickTable) (name : CString) : Option NickEntry :=
  (table.buckets (strIhash name % size)).findSome? fun id =>
    (table.entry? id).filter fun entry => Answers entry name

/-- The index agrees with the entries. -/
structure Coherent (table : NickTable) : Prop where
  distinct : (table.entries.map NickEntry.id).Nodup
  fresh : ∀ entry ∈ table.entries, entry.id < table.nextId
  hashed : ∀ entry ∈ table.entries, entry.isUser →
    entry.hash = strIhash entry.name
  linked : ∀ bucket id, id ∈ table.buckets bucket ↔
    ∃ entry ∈ table.entries, entry.isUser ∧ entry.id = id ∧
      entry.hash % size = bucket

/-- Every user has a name, and no two users have the same one. -/
structure Apart (table : NickTable) : Prop where
  named : ∀ entry ∈ table.entries, entry.isUser → entry.name ≠ []
  unique : ∀ first ∈ table.entries, ∀ second ∈ table.entries,
    first.isUser → second.isUser → IcmpEq first.name second.name →
      first = second

/-- The name is not empty, and no user but possibly one holds it. -/
def Free (table : NickTable) (except : Option Nat) (name : CString) : Prop :=
  name ≠ [] ∧ ∀ entry ∈ table.entries, entry.isUser →
    some entry.id ≠ except → ¬ IcmpEq entry.name name

instance (table : NickTable) (except : Option Nat) (name : CString) :
    Decidable (table.Free except name) :=
  inferInstanceAs (Decidable (_ ∧ _))

section Index

variable {table : NickTable}

theorem mem_unlink_iff {buckets : Nat → List Nat} {hash id bucket other : Nat} :
    other ∈ unlink buckets hash id bucket ↔
      other ∈ buckets bucket ∧ ¬ (bucket = hash % size ∧ other = id) := by
  unfold unlink
  split_ifs with here
  · simp [here]
  · simp [here]

theorem mem_link_iff {buckets : Nat → List Nat} {hash id bucket other : Nat} :
    other ∈ link buckets hash id bucket ↔
      other ∈ buckets bucket ∨ (bucket = hash % size ∧ other = id) := by
  unfold link
  split_ifs with here
  · simp [here, or_comm]
  · simp [here]

theorem Coherent.entry?_of_mem (coherent : table.Coherent) {entry : NickEntry}
    (member : entry ∈ table.entries) : table.entry? entry.id = some entry :=
  (KeyedList.find?_eq_some_iff coherent.distinct).mpr ⟨member, rfl⟩

theorem mem_of_entry? {id : Nat} {entry : NickEntry}
    (found : table.entry? id = some entry) :
    entry ∈ table.entries ∧ entry.id = id :=
  ⟨List.mem_of_find?_eq_some found, by simpa using List.find?_some found⟩

/-- Only a user that answers to the name is found. -/
theorem Coherent.of_find (coherent : table.Coherent) {name : CString}
    {entry : NickEntry} (found : table.find name = some entry) :
    entry ∈ table.entries ∧ entry.isUser ∧ Answers entry name := by
  obtain ⟨id, inBucket, hit⟩ := List.exists_of_findSome?_eq_some found
  obtain ⟨shown, answers⟩ := Option.filter_eq_some_iff.mp hit
  obtain ⟨member, isId⟩ := mem_of_entry? shown
  obtain ⟨linked, linkedMember, isUser, linkedId, -⟩ :=
    (coherent.linked _ id).mp inBucket
  have same : linked = entry :=
    KeyedList.eq_of_key_eq coherent.distinct linkedMember member
      (by rw [linkedId, isId])
  exact ⟨member, same ▸ isUser, by simpa using answers⟩

/-- A name that is not found is held by no user. -/
theorem Coherent.not_held_of_find_eq_none (coherent : table.Coherent)
    {name : CString} (notFound : table.find name = none) {entry : NickEntry}
    (member : entry ∈ table.entries) (isUser : entry.isUser)
    (named : entry.name ≠ []) : ¬ IcmpEq entry.name name := by
  intro same
  have hash : entry.hash = strIhash name :=
    (coherent.hashed entry member isUser).trans (strIhash_eq_of_icmpEq same)
  have inBucket : entry.id ∈ table.buckets (strIhash name % size) :=
    (coherent.linked _ _).mpr ⟨entry, member, isUser, rfl, by rw [hash]⟩
  have missed := List.findSome?_eq_none_iff.mp notFound _ inBucket
  rw [coherent.entry?_of_mem member] at missed
  have answers : Answers entry name := ⟨named, hash, same⟩
  simp [answers] at missed

/-- In a coherent table with the users apart, every user is found under its
name. -/
theorem Coherent.find_name (coherent : table.Coherent) (apart : table.Apart)
    {entry : NickEntry} (member : entry ∈ table.entries)
    (isUser : entry.isUser) : table.find entry.name = some entry := by
  cases found : table.find entry.name with
  | none =>
      exact absurd (IcmpEq.refl entry.name)
        (coherent.not_held_of_find_eq_none found member isUser
          (apart.named entry member isUser))
  | some other =>
      obtain ⟨otherMember, otherUser, answers⟩ := coherent.of_find found
      rw [apart.unique other otherMember entry member otherUser isUser
        answers.2.2]

/-- A name that is not found is free. -/
theorem Coherent.free_of_find_eq_none (coherent : table.Coherent)
    (apart : table.Apart) {name : CString} (nonempty : name ≠ [])
    (notFound : table.find name = none) (except : Option Nat) :
    table.Free except name :=
  ⟨nonempty, fun entry member isUser _ =>
    coherent.not_held_of_find_eq_none notFound member isUser
      (apart.named entry member isUser)⟩

/-- A name under which a user is found is free for that user. -/
theorem Coherent.free_of_find_eq_some (coherent : table.Coherent)
    (apart : table.Apart) {name : CString} {entry : NickEntry}
    (nonempty : name ≠ []) (found : table.find name = some entry) :
    table.Free (some entry.id) name := by
  obtain ⟨member, isUser, answers⟩ := coherent.of_find found
  refine ⟨nonempty, fun other otherMember otherUser notEntry same => ?_⟩
  have equal := apart.unique other otherMember entry member otherUser isUser
    (same.trans answers.2.2.symm)
  exact notEntry (by rw [equal])

end Index

/-! ## Renaming -/

section Rename

variable {table : NickTable} {id : Nat} {name : CString}

private theorem mem_rename_entries {entry : NickEntry}
    (found : table.entry? id = some entry) {other : NickEntry} :
    other ∈ (table.rename id name).entries ↔
      (∃ old ∈ table.entries, old.id ≠ id ∧ other = old) ∨
        ∃ old ∈ table.entries, old.id = id ∧
          other = { old with name := name, hash := strIhash name } := by
  simp only [rename, found, List.mem_map]
  constructor
  · rintro ⟨old, member, rfl⟩
    by_cases isId : old.id = id
    · exact .inr ⟨old, member, isId, by simp [isId]⟩
    · exact .inl ⟨old, member, isId, by simp [isId]⟩
  · rintro (⟨old, member, notId, rfl⟩ | ⟨old, member, isId, rfl⟩)
    · exact ⟨_, member, by simp [notId]⟩
    · exact ⟨old, member, by simp [isId]⟩

theorem Coherent.rename (coherent : table.Coherent) (id : Nat)
    (name : CString) : (table.rename id name).Coherent := by
  cases found : table.entry? id with
  | none => simpa [NickTable.rename, found] using coherent
  | some entry =>
      obtain ⟨member, isId⟩ := mem_of_entry? found
      have onlyEntry : ∀ old ∈ table.entries, old.id = id → old = entry :=
        fun old oldMember oldId =>
          KeyedList.eq_of_key_eq coherent.distinct oldMember member
            (oldId.trans isId.symm)
      refine ⟨?_, ?_, ?_, ?_⟩
      · have keys : (table.rename id name).entries.map NickEntry.id =
            table.entries.map NickEntry.id := by
          simp only [NickTable.rename, found]
          exact KeyedList.map_key_map _ fun old => by split_ifs <;> rfl
        rw [keys]
        exact coherent.distinct
      · intro other otherMember
        have sameNext : (table.rename id name).nextId = table.nextId := by
          simp only [NickTable.rename, found]
        rw [sameNext]
        rcases (mem_rename_entries found).mp otherMember with
          ⟨old, oldMember, -, rfl⟩ | ⟨old, oldMember, -, rfl⟩
        · exact coherent.fresh _ oldMember
        · exact coherent.fresh old oldMember
      · intro other otherMember isUser
        rcases (mem_rename_entries found).mp otherMember with
          ⟨old, oldMember, -, rfl⟩ | ⟨old, oldMember, -, rfl⟩
        · exact coherent.hashed _ oldMember isUser
        · rfl
      · intro bucket other
        have buckets : (table.rename id name).buckets =
            if entry.isUser then
              link (unlink table.buckets entry.hash id) (strIhash name) id
            else table.buckets := by
          simp only [NickTable.rename, found]
        simp only [mem_rename_entries found, buckets]
        constructor
        · intro inBucket
          split_ifs at inBucket with isUser
          · rw [mem_link_iff, mem_unlink_iff, coherent.linked] at inBucket
            rcases inBucket with
              ⟨⟨old, oldMember, oldUser, oldId, oldBucket⟩, kept⟩ | ⟨rfl, rfl⟩
            · refine ⟨old, .inl ⟨old, oldMember, fun same => kept ?_, rfl⟩,
                oldUser, oldId, oldBucket⟩
              have isEntry := onlyEntry old oldMember same
              exact ⟨by rw [← oldBucket, isEntry], by rw [← oldId, same]⟩
            · exact ⟨_, .inr ⟨entry, member, isId, rfl⟩, isUser, isId, rfl⟩
          · obtain ⟨old, oldMember, oldUser, oldId, oldBucket⟩ :=
              (coherent.linked _ _).mp inBucket
            refine ⟨old, .inl ⟨old, oldMember, fun same => isUser ?_, rfl⟩,
              oldUser, oldId, oldBucket⟩
            rw [← onlyEntry old oldMember same]
            exact oldUser
        · rintro ⟨shown, ⟨old, oldMember, notId, rfl⟩ |
            ⟨old, oldMember, oldId, rfl⟩, isUser, shownId, shownBucket⟩
          · have inBucket := (coherent.linked bucket other).mpr
              ⟨shown, oldMember, isUser, shownId, shownBucket⟩
            split_ifs
            · rw [mem_link_iff, mem_unlink_iff]
              exact .inl ⟨inBucket, fun both =>
                notId (shownId.trans both.2)⟩
            · exact inBucket
          · have entryUser : entry.isUser := by
              rw [← onlyEntry old oldMember oldId]
              exact isUser
            rw [if_pos entryUser, mem_link_iff]
            exact .inr ⟨shownBucket.symm, shownId.symm.trans oldId⟩

theorem Apart.rename (coherent : table.Coherent) (apart : table.Apart)
    (free : ∀ entry ∈ table.entries, entry.id = id → entry.isUser →
      table.Free (some id) name) :
    (table.rename id name).Apart := by
  cases found : table.entry? id with
  | none => simpa [NickTable.rename, found] using apart
  | some entry =>
      obtain ⟨member, isId⟩ := mem_of_entry? found
      have onlyEntry : ∀ old ∈ table.entries, old.id = id → old = entry :=
        fun old oldMember oldId =>
          KeyedList.eq_of_key_eq coherent.distinct oldMember member
            (oldId.trans isId.symm)
      refine ⟨?_, ?_⟩
      · intro other otherMember isUser
        rcases (mem_rename_entries found).mp otherMember with
          ⟨old, oldMember, -, rfl⟩ | ⟨old, oldMember, oldId, rfl⟩
        · exact apart.named _ oldMember isUser
        · exact (free old oldMember oldId isUser).1
      · intro first firstMember second secondMember firstUser secondUser same
        rcases (mem_rename_entries found).mp firstMember with
          ⟨old, oldMember, notId, rfl⟩ | ⟨old, oldMember, oldId, rfl⟩ <;>
        rcases (mem_rename_entries found).mp secondMember with
          ⟨old', oldMember', notId', rfl⟩ | ⟨old', oldMember', oldId', rfl⟩
        · exact apart.unique _ oldMember _ oldMember' firstUser secondUser same
        · exact absurd same ((free old' oldMember' oldId' secondUser).2 _
            oldMember firstUser (by simpa using notId))
        · exact absurd same.symm ((free old oldMember oldId firstUser).2 _
            oldMember' secondUser (by simpa using notId'))
        · rw [onlyEntry old oldMember oldId, onlyEntry old' oldMember' oldId']

end Rename

/-! ## Inserting and removing -/

section InsertRemove

variable {table : NickTable}

theorem Coherent.insert (coherent : table.Coherent) (isUser : Bool)
    (name : CString) : (table.insert isUser name).Coherent := by
  have notYet : ∀ entry ∈ table.entries, entry.id ≠ table.nextId :=
    fun entry member => Nat.ne_of_lt (coherent.fresh entry member)
  refine ⟨?_, ?_, ?_, ?_⟩
  · simp only [NickTable.insert, List.map_append, List.map_cons, List.map_nil]
    refine List.nodup_append.mpr ⟨coherent.distinct, by simp, ?_⟩
    intro id member other isNew
    obtain ⟨entry, entryMember, rfl⟩ := List.mem_map.mp member
    rw [List.mem_singleton.mp isNew]
    exact notYet entry entryMember
  · intro entry member
    rcases List.mem_append.mp member with old | new
    · exact Nat.lt_succ_of_lt (coherent.fresh entry old)
    · rw [List.mem_singleton.mp new]
      exact Nat.lt_succ_self _
  · intro entry member entryUser
    rcases List.mem_append.mp member with old | new
    · exact coherent.hashed entry old entryUser
    · rw [List.mem_singleton.mp new]
  · intro bucket id
    simp only [NickTable.insert, List.mem_append, List.mem_singleton]
    constructor
    · intro inBucket
      split_ifs at inBucket with newUser
      · rcases mem_link_iff.mp inBucket with old | ⟨rfl, rfl⟩
        · obtain ⟨entry, member, rest⟩ := (coherent.linked _ _).mp old
          exact ⟨entry, .inl member, rest⟩
        · exact ⟨_, .inr rfl, newUser, rfl, rfl⟩
      · obtain ⟨entry, member, rest⟩ := (coherent.linked _ _).mp inBucket
        exact ⟨entry, .inl member, rest⟩
    · rintro ⟨entry, old | rfl, entryUser, rfl, rfl⟩
      · have inBucket := (coherent.linked _ _).mpr
          ⟨entry, old, entryUser, rfl, rfl⟩
        split_ifs
        · exact mem_link_iff.mpr (.inl inBucket)
        · exact inBucket
      · have newUser : isUser = true := entryUser
        rw [if_pos newUser]
        exact mem_link_iff.mpr (.inr ⟨rfl, rfl⟩)

theorem Apart.insert (apart : table.Apart) {isUser : Bool} {name : CString}
    (free : isUser → table.Free none name) :
    (table.insert isUser name).Apart := by
  refine ⟨?_, ?_⟩
  · intro entry member entryUser
    rcases List.mem_append.mp member with old | new
    · exact apart.named entry old entryUser
    · rw [List.mem_singleton.mp new] at entryUser ⊢
      exact (free entryUser).1
  · intro first firstMember second secondMember firstUser secondUser same
    rcases List.mem_append.mp firstMember with firstOld | firstNew <;>
      rcases List.mem_append.mp secondMember with secondOld | secondNew
    · exact apart.unique first firstOld second secondOld firstUser secondUser
        same
    · rw [List.mem_singleton.mp secondNew] at secondUser same
      exact absurd same ((free secondUser).2 first firstOld firstUser (by simp))
    · rw [List.mem_singleton.mp firstNew] at firstUser same
      exact absurd same.symm
        ((free firstUser).2 second secondOld secondUser (by simp))
    · rw [List.mem_singleton.mp firstNew, List.mem_singleton.mp secondNew]

theorem Coherent.remove (coherent : table.Coherent) (id : Nat) :
    (table.remove id).Coherent := by
  cases found : table.entry? id with
  | none => simpa [NickTable.remove, found] using coherent
  | some entry =>
      obtain ⟨member, isId⟩ := mem_of_entry? found
      simp only [NickTable.remove, found]
      refine ⟨?_, ?_, ?_, ?_⟩
      · exact (List.filter_sublist.map _).nodup coherent.distinct
      · intro other otherMember
        exact coherent.fresh other (List.mem_of_mem_filter otherMember)
      · intro other otherMember
        exact coherent.hashed other (List.mem_of_mem_filter otherMember)
      · intro bucket other
        simp only [List.mem_filter, decide_eq_true_eq]
        constructor
        · intro inBucket
          split_ifs at inBucket with isUser
          · obtain ⟨inBucket, kept⟩ := mem_unlink_iff.mp inBucket
            obtain ⟨old, oldMember, oldUser, oldId, oldBucket⟩ :=
              (coherent.linked _ _).mp inBucket
            refine ⟨old, ⟨oldMember, fun same => kept ?_⟩, oldUser, oldId,
              oldBucket⟩
            have isEntry := KeyedList.eq_of_key_eq coherent.distinct oldMember
              member (same.trans isId.symm)
            exact ⟨by rw [← oldBucket, isEntry], by rw [← oldId, same]⟩
          · obtain ⟨old, oldMember, oldUser, oldId, oldBucket⟩ :=
              (coherent.linked _ _).mp inBucket
            refine ⟨old, ⟨oldMember, fun same => isUser ?_⟩, oldUser, oldId,
              oldBucket⟩
            rw [← KeyedList.eq_of_key_eq coherent.distinct oldMember member
              (same.trans isId.symm)]
            exact oldUser
        · rintro ⟨old, ⟨oldMember, notId⟩, oldUser, rfl, rfl⟩
          have inBucket := (coherent.linked _ _).mpr
            ⟨old, oldMember, oldUser, rfl, rfl⟩
          split_ifs
          · exact mem_unlink_iff.mpr ⟨inBucket, fun both => notId both.2⟩
          · exact inBucket

theorem Apart.remove (apart : table.Apart) (id : Nat) :
    (table.remove id).Apart := by
  cases found : table.entry? id with
  | none => simpa [NickTable.remove, found] using apart
  | some entry =>
      simp only [NickTable.remove, found]
      refine ⟨?_, ?_⟩
      · intro other otherMember
        exact apart.named other (List.mem_of_mem_filter otherMember)
      · intro first firstMember second secondMember
        exact apart.unique first (List.mem_of_mem_filter firstMember) second
          (List.mem_of_mem_filter secondMember)

end InsertRemove

end NickTable

end Chaosircd
