import DagWorker.Core.Node
import Mathlib.Data.Set.Lattice
import Mathlib.Order.CompletePartialOrder

/-!
# The key names of a scope

Every key of a scope is the scope's prefix, its name in braces, followed by what the key
is for.  Names, identifiers and kinds are put into the key as they are, braces and
colons included.
-/

namespace DagWorker.Redis

/-! ## Keys -/

/-- What a key of a scope holds. -/
inductive Key
  | node (id : NodeID)
  | blob (id : NodeID)
  | succ (id : NodeID)
  | pred (id : NodeID)
  | ready (kind : String)
  | stats
  | idx
  | kinds
  | leases
  | sched
  | cfg
  | cursor
  | nextOrd
  | nextFifo
  | events

namespace Key

/-- `kNode`, `kBlob` and the other key helpers, after the prefix. -/
def suffix : Key → String
  | node id => "n:" ++ id
  | blob id => "b:" ++ id
  | succ id => "s:" ++ id
  | pred id => "p:" ++ id
  | ready kind => "r:" ++ kind
  | stats => "stats"
  | idx => "idx"
  | kinds => "kinds"
  | leases => "leases"
  | sched => "sched"
  | cfg => "cfg"
  | cursor => "cursor"
  | nextOrd => "nextord"
  | nextFifo => "nextfifo"
  | events => "events"

/-- The identifier or kind in the key has passed validation. -/
def Valid : Key → Prop
  | node id | blob id | succ id | pred id => validateNodeID id = .ok ()
  | ready kind => validateKind kind = .ok ()
  | _ => True

end Key

/-- `prefix`; the keyspace is a setting of the store. -/
def keyPrefix (keyspace scope : String) : String := "\x7b" ++ keyspace ++ scope ++ "\x7d:"

/-- The keys the backend uses for a scope. -/
def keysOf (keyspace scope : String) : Set String :=
  {k | ∃ key : Key, key.Valid ∧ k = keyPrefix keyspace scope ++ key.suffix}

/-- The name `t` continues `s` the way a key of a node or a ready set of `s` does. -/
def Nests (s t : String) : Prop :=
  ∃ tag rest, t = s ++ "\x7d:" ++ tag ++ rest ∧
    (tag ∈ ["n:", "b:", "s:", "p:"] ∨ tag = "r:" ∧ rest.utf8ByteSize ≤ 60)

/-! ## Sizes -/

theorem checkLen_ok {field s : String} {limit : ℕ} :
    checkLen field s limit = .ok () ↔ s.utf8ByteSize ≤ limit := by
  unfold checkLen
  split
  · rename_i h
    simpa using h
  · rename_i h
    simpa using h

theorem validateNodeID_ok {id : NodeID} :
    validateNodeID id = .ok () ↔ 0 < id.utf8ByteSize ∧ id.utf8ByteSize ≤ maxNodeIDLen := by
  unfold validateNodeID
  split
  · rename_i h
    simp [h]
  · rename_i h
    rw [checkLen_ok]
    omega

theorem validateScope_ok {s : String} :
    validateScope s = .ok () ↔ 0 < s.utf8ByteSize ∧ s.utf8ByteSize ≤ maxScopeLen := by
  unfold validateScope
  split
  · rename_i h
    simp [h]
  · rename_i h
    rw [checkLen_ok]
    omega

theorem Key.two_le_suffix {key : Key} : 2 ≤ key.suffix.utf8ByteSize := by
  cases key with
  | node id | blob id | succ id | pred id | ready id =>
    rw [Key.suffix, String.utf8ByteSize_append]
    exact Nat.le_add_right 2 _
  | _ => decide

/-! ## Where two keys meet -/

/-- What is left of a separator and a text after a shorter name: the separator cannot
overlap itself. -/
theorem exists_of_sep_append {a b c : List Char} (hc : c ≠ [])
    (h : '}' :: ':' :: a = c ++ '}' :: ':' :: b) :
    ∃ w, c = '}' :: ':' :: w ∧ a = w ++ '}' :: ':' :: b := by
  match c, hc, h with
  | [d], _, h => simp at h
  | d :: e :: w, _, h =>
    simp only [List.cons_append, List.cons.injEq] at h
    obtain ⟨rfl, rfl, ha⟩ := h
    exact ⟨w, rfl, ha⟩

/-- Two names with the same key are equal, or one continues the other with a
separator. -/
theorem exists_of_append_eq {s t a b : String} (hne : s ≠ t)
    (h : s ++ "\x7d:" ++ a = t ++ "\x7d:" ++ b) :
    (∃ w, t = s ++ "\x7d:" ++ w ∧ a = w ++ "\x7d:" ++ b) ∨
      ∃ w, s = t ++ "\x7d:" ++ w ∧ b = w ++ "\x7d:" ++ a := by
  have hlist : s.toList ++ '}' :: ':' :: a.toList = t.toList ++ '}' :: ':' :: b.toList := by
    simpa using congrArg String.toList h
  have hlists : s.toList ≠ t.toList := fun heq => hne (String.toList_inj.mp heq)
  rcases List.append_eq_append_iff.mp hlist with ⟨c, ht, hc⟩ | ⟨c, hs, hc⟩
  · obtain ⟨w, rfl, ha⟩ := exists_of_sep_append (fun hnil => hlists (by simp [ht, hnil])) hc
    refine .inl ⟨String.ofList w, ?_, ?_⟩
    · rw [← String.toList_inj]
      simpa using ht
    · rw [← String.toList_inj]
      simpa using ha
  · obtain ⟨w, rfl, hb⟩ := exists_of_sep_append (fun hnil => hlists (by simp [hs, hnil])) hc
    refine .inr ⟨String.ofList w, ?_, ?_⟩
    · rw [← String.toList_inj]
      simpa using hs
    · rw [← String.toList_inj]
      simpa using hb

/-- A tag followed by any text, with a separator inside. -/
theorem exists_of_tag_append {c : Char} (hc : c ≠ '}') {x w b : String}
    (h : String.ofList [c, ':'] ++ x = w ++ "\x7d:" ++ b) :
    ∃ rest, w = String.ofList [c, ':'] ++ rest ∧ x = rest ++ "\x7d:" ++ b := by
  have hlist : c :: ':' :: x.toList = w.toList ++ '}' :: ':' :: b.toList := by
    simpa using congrArg String.toList h
  match hw : w.toList, hlist with
  | [], hlist => simp at hlist; exact absurd hlist.1 hc
  | [d], hlist => simp at hlist
  | d :: e :: rest, hlist =>
    simp only [List.cons_append, List.cons.injEq] at hlist
    obtain ⟨rfl, rfl, hx⟩ := hlist
    refine ⟨String.ofList rest, ?_, ?_⟩
    · rw [← String.toList_inj]
      simpa using hw
    · rw [← String.toList_inj]
      simpa using hx

/-- Only the keys that hold an identifier or a kind can hold a separator. -/
theorem Key.nests_of_suffix_eq {key : Key} (hv : key.Valid) {s w b : String}
    (hb : 2 ≤ b.utf8ByteSize) (h : key.suffix = w ++ "\x7d:" ++ b) :
    Nests s (s ++ "\x7d:" ++ w) := by
  have hplain : '}' ∈ key.suffix.toList := by
    rw [h]
    simp
  cases key with
  | node id =>
    obtain ⟨rest, rfl, -⟩ := exists_of_tag_append (c := 'n') (by decide) h
    exact ⟨"n:", rest, String.append_assoc.symm, .inl (by decide)⟩
  | blob id =>
    obtain ⟨rest, rfl, -⟩ := exists_of_tag_append (c := 'b') (by decide) h
    exact ⟨"b:", rest, String.append_assoc.symm, .inl (by decide)⟩
  | succ id =>
    obtain ⟨rest, rfl, -⟩ := exists_of_tag_append (c := 's') (by decide) h
    exact ⟨"s:", rest, String.append_assoc.symm, .inl (by decide)⟩
  | pred id =>
    obtain ⟨rest, rfl, -⟩ := exists_of_tag_append (c := 'p') (by decide) h
    exact ⟨"p:", rest, String.append_assoc.symm, .inl (by decide)⟩
  | ready kind =>
    obtain ⟨rest, rfl, hkind⟩ := exists_of_tag_append (c := 'r') (by decide) h
    have hsize : kind.utf8ByteSize ≤ maxKindLen := checkLen_ok.mp hv
    rw [hkind, String.utf8ByteSize_append, String.utf8ByteSize_append] at hsize
    have hsep : "\x7d:".utf8ByteSize = 2 := by decide
    have hmax : maxKindLen = 64 := rfl
    exact ⟨"r:", rest, String.append_assoc.symm, .inr ⟨rfl, by omega⟩⟩
  | _ => exact absurd hplain (by decide)

/-- The key of `s` that holds what follows it in the name of `t`, up to `t`'s own key
for ready nodes without a kind. -/
theorem exists_key_of_nests {s t : String} (hs : validateScope s = .ok ())
    (ht : validateScope t = .ok ()) (h : Nests s t) :
    ∃ key : Key, key.Valid ∧
      s ++ "\x7d:" ++ key.suffix = t ++ "\x7d:" ++ (Key.ready "").suffix := by
  obtain ⟨tag, rest, rfl, htag⟩ := h
  set id := rest ++ "\x7d:" ++ "r:" with hid
  have hsep : "\x7d:".utf8ByteSize = 2 := by decide
  have hr : "r:".utf8ByteSize = 2 := by decide
  have hsize : id.utf8ByteSize = rest.utf8ByteSize + 4 := by
    simp only [hid, String.utf8ByteSize_append]
    omega
  have hkey : ∀ tag, s ++ "\x7d:" ++ (tag ++ id) =
      s ++ "\x7d:" ++ tag ++ rest ++ "\x7d:" ++ (Key.ready "").suffix := by
    intro tag
    simp only [hid, Key.suffix, String.append_assoc, String.append_empty]
  have hs := (validateScope_ok.mp hs).1
  have ht := (validateScope_ok.mp ht).2
  simp only [String.utf8ByteSize_append] at ht
  have hmax : maxScopeLen = 255 ∧ maxNodeIDLen = 255 ∧ maxKindLen = 64 := ⟨rfl, rfl, rfl⟩
  rcases htag with htag | ⟨rfl, hrest⟩
  · have htwo : tag.utf8ByteSize = 2 := by
      simp only [List.mem_cons, List.not_mem_nil, or_false] at htag
      rcases htag with rfl | rfl | rfl | rfl <;> decide
    have hvalid : validateNodeID id = .ok () := validateNodeID_ok.mpr (by omega)
    simp only [List.mem_cons, List.not_mem_nil, or_false] at htag
    rcases htag with rfl | rfl | rfl | rfl
    · exact ⟨.node id, hvalid, hkey "n:"⟩
    · exact ⟨.blob id, hvalid, hkey "b:"⟩
    · exact ⟨.succ id, hvalid, hkey "s:"⟩
    · exact ⟨.pred id, hvalid, hkey "p:"⟩
  · have hvalid : validateKind id = .ok () := checkLen_ok.mpr (by omega)
    exact ⟨.ready id, hvalid, hkey "r:"⟩

theorem keyPrefix_append (keyspace s a : String) :
    keyPrefix keyspace s ++ a = "\x7b" ++ keyspace ++ (s ++ "\x7d:" ++ a) := by
  simp only [keyPrefix, String.append_assoc]

/-- **When scopes are isolated.**  The keys of two scopes are disjoint unless the name
of one continues the name of the other like a key. -/
theorem keys_disjoint_iff (keyspace : String) {s t : String} (hs : validateScope s = .ok ())
    (ht : validateScope t = .ok ()) (hne : s ≠ t) :
    Disjoint (keysOf keyspace s) (keysOf keyspace t) ↔ ¬Nests s t ∧ ¬Nests t s := by
  have hempty : (Key.ready "").Valid := checkLen_ok.mpr (by decide)
  rw [Set.disjoint_left]
  constructor
  · intro hdisjoint
    constructor
    · intro hnests
      obtain ⟨key, hkey, heq⟩ := exists_key_of_nests hs ht hnests
      refine hdisjoint ⟨key, hkey, rfl⟩ ⟨.ready "", hempty, ?_⟩
      rw [keyPrefix_append, keyPrefix_append, heq]
    · intro hnests
      obtain ⟨key, hkey, heq⟩ := exists_key_of_nests ht hs hnests
      refine hdisjoint ⟨.ready "", hempty, rfl⟩ ⟨key, hkey, ?_⟩
      rw [keyPrefix_append, keyPrefix_append, heq]
  · rintro ⟨hst, hts⟩ k ⟨key, hkey, rfl⟩ ⟨key', hkey', heq⟩
    rw [keyPrefix_append, keyPrefix_append, String.append_right_inj] at heq
    rcases exists_of_append_eq hne heq with ⟨w, rfl, ha⟩ | ⟨w, rfl, hb⟩
    · exact hst (Key.nests_of_suffix_eq hkey Key.two_le_suffix ha)
    · exact hts (Key.nests_of_suffix_eq hkey' Key.two_le_suffix hb)

theorem keys_disjoint_jobs :
    validateScope "jobs" = .ok () ∧ validateScope "jobs:daily" = .ok () ∧
      Disjoint (keysOf "" "jobs") (keysOf "" "jobs:daily") := by
  have hs : validateScope "jobs" = .ok () := by decide
  have ht : validateScope "jobs:daily" = .ok () := by decide
  refine ⟨hs, ht, (keys_disjoint_iff "" hs ht (by decide)).mpr ⟨?_, ?_⟩⟩
  · rintro ⟨tag, rest, heq, -⟩
    have hlist := congrArg String.toList heq
    simp at hlist
  · rintro ⟨tag, rest, heq, -⟩
    have hlist := congrArg String.toList heq
    simp at hlist

/-- Node `x}:cfg` of scope `a` lies where the configuration of scope `a}:n:x` does. -/
theorem node_key_eq_cfg_key :
    validateScope "a" = .ok () ∧ validateScope "a\x7d:n:x" = .ok () ∧
      validateNodeID "x\x7d:cfg" = .ok () ∧
      keyPrefix "" "a" ++ (Key.node "x\x7d:cfg").suffix ∈ keysOf "" "a" ∧
      keyPrefix "" "a" ++ (Key.node "x\x7d:cfg").suffix ∈ keysOf "" "a\x7d:n:x" := by
  have hid : validateNodeID "x\x7d:cfg" = .ok () := by decide
  exact ⟨by decide, by decide, hid, ⟨.node "x\x7d:cfg", hid, rfl⟩, ⟨.cfg, trivial, by decide⟩⟩

end DagWorker.Redis
