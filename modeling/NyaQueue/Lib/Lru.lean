import Mathlib.Data.List.Nodup

/-!
# A cache that forgets what was used least recently

The entries stand in the order of their last use, the latest first.  `add` and
`remove` answer with the entry that has left the cache, if one has.
-/

set_option autoImplicit false

structure Lru (κ ν : Type) where
  capacity : Nat
  entries : List (κ × ν)

namespace Lru

variable {κ ν : Type}

def empty (capacity : Nat) : Lru κ ν := { capacity := capacity, entries := [] }

/-- Every value of the cache has the property. -/
def Holds (c : Lru κ ν) (p : ν → Prop) : Prop := ∀ entry ∈ c.entries, p entry.2

theorem holds_empty (capacity : Nat) (p : ν → Prop) : (empty capacity : Lru κ ν).Holds p := by
  intro entry member
  cases member

variable [DecidableEq κ]

def others (c : Lru κ ν) (key : κ) : List (κ × ν) := c.entries.filter fun entry => entry.1 ≠ key

def peek (c : Lru κ ν) (key : κ) : Option ν :=
  (c.entries.find? fun entry => entry.1 = key).map Prod.snd

def get (c : Lru κ ν) (key : κ) : Option ν × Lru κ ν :=
  match c.peek key with
  | none => (none, c)
  | some value => (some value, { c with entries := (key, value) :: c.others key })

def add (c : Lru κ ν) (key : κ) (value : ν) : Option (κ × ν) × Lru κ ν :=
  match c.peek key with
  | some _ => (none, { c with entries := (key, value) :: c.others key })
  | none =>
      let entries := (key, value) :: c.entries
      if c.capacity < entries.length then
        (entries.getLast?, { c with entries := entries.dropLast })
      else (none, { c with entries := entries })

def remove (c : Lru κ ν) (key : κ) : Option (κ × ν) × Lru κ ν :=
  match c.peek key with
  | none => (none, c)
  | some value => (some (key, value), { c with entries := c.others key })

/-! ## What the cache holds -/

variable {c : Lru κ ν} {p : ν → Prop} {key : κ} {value : ν}

theorem Holds.of_peek (holds : c.Holds p) (found : c.peek key = some value) : p value := by
  obtain ⟨entry, first, rfl⟩ := Option.map_eq_some_iff.mp found
  exact holds entry (List.mem_of_find?_eq_some first)

theorem Holds.front (holds : c.Holds p) (new : p value) :
    ∀ entry ∈ (key, value) :: c.others key, p entry.2 := by
  intro entry member
  rcases List.mem_cons.mp member with rfl | other
  · exact new
  · exact holds entry (List.mem_of_mem_filter other)

theorem Holds.get (holds : c.Holds p) (key : κ) :
    (c.get key).2.Holds p ∧ ∀ value, (c.get key).1 = some value → p value := by
  unfold Lru.get
  cases found : c.peek key with
  | none => exact ⟨holds, fun _ impossible => (by cases impossible)⟩
  | some value =>
    refine ⟨holds.front (holds.of_peek found), ?_⟩
    intro value' same
    rw [← Option.some.inj same]
    exact holds.of_peek found

theorem Holds.add (holds : c.Holds p) (key : κ) (new : p value) : (c.add key value).2.Holds p := by
  have longer : ∀ entry ∈ (key, value) :: c.entries, p entry.2 := by
    intro entry member
    rcases List.mem_cons.mp member with rfl | old
    · exact new
    · exact holds entry old
  unfold Lru.add
  cases c.peek key with
  | some _ => exact holds.front new
  | none =>
    dsimp only
    split_ifs
    · intro entry member
      exact longer entry ((List.dropLast_sublist _).subset member)
    · exact longer

theorem Holds.remove (holds : c.Holds p) (key : κ) : (c.remove key).2.Holds p := by
  unfold Lru.remove
  cases c.peek key with
  | none => exact holds
  | some value =>
    intro entry member
    exact holds entry (List.mem_of_mem_filter member)

/-! ## What a key leads to -/

@[simp] theorem peek_empty (capacity : Nat) (key : κ) :
    (empty capacity : Lru κ ν).peek key = none := rfl

theorem peek_cons (c : Lru κ ν) (first : κ × ν) (rest : List (κ × ν)) (key : κ) :
    peek { c with entries := first :: rest } key =
      if key = first.1 then some first.2 else peek { c with entries := rest } key := by
  by_cases same : first.1 = key
  · simp [peek, same]
  · simp [peek, same, Ne.symm same]

theorem peek_others (c : Lru κ ν) (key other : κ) :
    peek { c with entries := c.others key } other = if other = key then none else c.peek other := by
  have walk : ∀ entries : List (κ × ν),
      peek { c with entries := entries.filter fun entry => entry.1 ≠ key } other =
        if other = key then none else peek { c with entries := entries } other := by
    intro entries
    induction entries with
    | nil => simp [peek]
    | cons first rest ih =>
      by_cases here : first.1 = key
      · rw [List.filter_cons_of_neg (by simp [here]), ih, peek_cons, here]
        split_ifs <;> rfl
      · rw [List.filter_cons_of_pos (by simp [here]), peek_cons, peek_cons, ih]
        by_cases same : other = first.1
        · rw [if_pos same, if_neg (same ▸ here), if_pos same]
        · rw [if_neg same, if_neg same]
  exact walk c.entries

theorem mem_of_peek (found : c.peek key = some value) : (key, value) ∈ c.entries := by
  obtain ⟨⟨k, v⟩, first, rfl⟩ := Option.map_eq_some_iff.mp found
  obtain rfl : k = key := by simpa using List.find?_some first
  exact List.mem_of_find?_eq_some first

theorem key_ne_of_peek (missing : c.peek key = none) {entry : κ × ν} (member : entry ∈ c.entries) :
    entry.1 ≠ key := by
  have none := List.find?_eq_none.mp (Option.map_eq_none_iff.mp missing) entry member
  simpa using none

@[simp] theorem peek_get (c : Lru κ ν) (key other : κ) : (c.get key).2.peek other = c.peek other := by
  cases found : c.peek key with
  | none => simp only [get, found]
  | some value =>
    simp only [get, found, peek_cons, peek_others]
    by_cases same : other = key
    · rw [if_pos same, same, found]
    · rw [if_neg same, if_neg same]

theorem get_fst (c : Lru κ ν) (key : κ) : (c.get key).1 = c.peek key := by
  cases found : c.peek key <;> simp only [get, found]

theorem remove_of_peek (found : c.peek key = some value) :
    c.remove key = (some (key, value), { c with entries := c.others key }) := by
  simp only [remove, found]

/-! ## Proper caches -/

/-- There is room for an entry, and no key has two. -/
structure Proper (c : Lru κ ν) : Prop where
  room : 1 ≤ c.capacity
  keys : (c.entries.map Prod.fst).Nodup

omit [DecidableEq κ] in
theorem proper_empty {capacity : Nat} (room : 1 ≤ capacity) :
    (empty capacity : Lru κ ν).Proper := ⟨room, List.nodup_nil⟩

theorem Proper.others (proper : c.Proper) (key : κ) : ((c.others key).map Prod.fst).Nodup :=
  proper.keys.sublist (List.filter_sublist.map _)

theorem Proper.front (proper : c.Proper) (key : κ) (value : ν) :
    Proper { c with entries := (key, value) :: c.others key } where
  room := proper.room
  keys := by
    refine List.nodup_cons.mpr ⟨?_, proper.others key⟩
    intro member
    obtain ⟨entry, other, same⟩ := List.mem_map.mp member
    simp [Lru.others, same] at other

theorem Proper.get (proper : c.Proper) (key : κ) : (c.get key).2.Proper := by
  cases found : c.peek key with
  | none => simpa only [Lru.get, found] using proper
  | some value => simpa only [Lru.get, found] using proper.front key value

theorem Proper.remove (proper : c.Proper) (key : κ) : (c.remove key).2.Proper := by
  cases found : c.peek key with
  | none => simpa only [Lru.remove, found] using proper
  | some value => simpa only [remove_of_peek found] using ⟨proper.room, proper.others key⟩

theorem Proper.cons (proper : c.Proper) (missing : c.peek key = none) (value : ν) :
    (((key, value) :: c.entries).map Prod.fst).Nodup := by
  refine List.nodup_cons.mpr ⟨?_, proper.keys⟩
  intro member
  obtain ⟨entry, there, same⟩ := List.mem_map.mp member
  exact key_ne_of_peek missing there same

theorem Proper.add (proper : c.Proper) (key : κ) (value : ν) : (c.add key value).2.Proper := by
  cases found : c.peek key with
  | some old => simpa only [Lru.add, found] using proper.front key value
  | none =>
    have longer := proper.cons found value
    simp only [Lru.add, found]
    split_ifs
    · exact ⟨proper.room, longer.sublist ((List.dropLast_sublist _).map _)⟩
    · exact ⟨proper.room, longer⟩

theorem Proper.peek_of_mem (proper : c.Proper) (member : (key, value) ∈ c.entries) :
    c.peek key = some value := by
  cases found : c.peek key with
  | none => exact absurd rfl (key_ne_of_peek found member)
  | some other =>
    have same := List.inj_on_of_nodup_map proper.keys (mem_of_peek found) member rfl
    exact congrArg (some ·.2) same

theorem peek_dropped {kept : List (κ × ν)} {victim : κ} {old : ν}
    (split : c.entries = kept ++ [(victim, old)]) (outside : victim ∉ kept.map Prod.fst)
    (other : κ) :
    peek { c with entries := kept } other = if other = victim then none else c.peek other := by
  by_cases same : other = victim
  · rw [if_pos same]
    cases found : peek { c with entries := kept } other with
    | none => rfl
    | some value => exact absurd (List.mem_map.mpr ⟨_, mem_of_peek found, same⟩) outside
  · rw [if_neg same]
    simp [peek, split, List.find?_append, Ne.symm same]

/-- What `add` does with a key that the cache does not have: the key leads to its
value, and every other key to where it led unless it is the one that was evicted. -/
theorem Proper.peek_add (proper : c.Proper) (missing : c.peek key = none) (value : ν) :
    ((c.add key value).1 = none ∧
      ∀ other, (c.add key value).2.peek other =
        if other = key then some value else c.peek other) ∨
    (∃ victim old, (c.add key value).1 = some (victim, old) ∧ victim ≠ key ∧
      c.peek victim = some old ∧
      ∀ other, (c.add key value).2.peek other =
        if other = key then some value else if other = victim then none else c.peek other) := by
  have longer := proper.cons missing value
  simp only [Lru.add, missing]
  split_ifs with full
  · right
    -- the last of the old entries is the one that leaves
    have nonempty : c.entries ≠ [] := by
      rintro none
      have := proper.room
      simp only [none, List.length_singleton] at full
      omega
    obtain ⟨kept, ⟨victim, old⟩, split⟩ : ∃ kept last, c.entries = kept ++ [last] :=
      ⟨_, _, (List.dropLast_append_getLast nonempty).symm⟩
    have last : (victim, old) ∈ c.entries := by simp [split]
    have outside : victim ∉ kept.map Prod.fst := by
      have distinct := proper.keys
      rw [split, List.map_append] at distinct
      exact fun member => List.disjoint_of_nodup_append distinct member (by simp)
    have gone : ((key, value) :: c.entries).getLast? = some (victim, old) := by
      rw [split, ← List.cons_append, List.getLast?_concat]
    have shorter : ((key, value) :: c.entries).dropLast = (key, value) :: kept := by
      rw [split, ← List.cons_append, List.dropLast_concat]
    refine ⟨victim, old, gone, key_ne_of_peek missing last, proper.peek_of_mem last, ?_⟩
    intro other
    rw [shorter, peek_cons]
    by_cases new : other = key
    · rw [if_pos new, if_pos new]
    · rw [if_neg new, if_neg new]
      exact peek_dropped split outside other
  · exact Or.inl ⟨rfl, fun other => peek_cons c (key, value) c.entries other⟩

theorem Proper.peek_add_self (proper : c.Proper) (missing : c.peek key = none) (value : ν) :
    (c.add key value).2.peek key = some value := by
  rcases proper.peek_add missing value with ⟨-, after⟩ | ⟨victim, old, -, -, -, after⟩
  · rw [after, if_pos rfl]
  · rw [after, if_pos rfl]

end Lru
