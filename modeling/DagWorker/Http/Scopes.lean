import DagWorker.Core.Node
import Mathlib.Data.List.Basic
import Mathlib.Data.List.TakeWhile

/-!
# The scope a request addresses

The router splits the escaped path into segments and decodes each of them; the handlers
take their scope from a decoded segment.  An authorizer runs before the router and gets
the scope from `RequestScope`, which looks for it in the decoded path.  This module
says for which requests the two agree.

Go strings are byte strings here, since paths may decode to any bytes.
-/

namespace DagWorker.Http

variable {b : UInt8} {seg s : Bytes}

/-! ## Paths -/

def ascii (s : String) : Bytes := s.toList.map fun c => UInt8.ofNat c.toNat

def slash : UInt8 := 0x2f
def colon : UInt8 := 0x3a
def percent : UInt8 := 0x25

/-- The value of a hexadecimal digit. -/
def unhex (b : UInt8) : Option UInt8 :=
  if 0x30 ≤ b ∧ b ≤ 0x39 then some (b - 0x30)
  else if 0x61 ≤ b ∧ b ≤ 0x66 then some (b - 0x61 + 10)
  else if 0x41 ≤ b ∧ b ≤ 0x46 then some (b - 0x41 + 10)
  else none

def unescape : Bytes → Option Bytes
  | [] => some []
  | b :: rest =>
    if b = percent then
      match rest with
      | hi :: lo :: rest => do
        let hi ← unhex hi
        let lo ← unhex lo
        let rest ← unescape rest
        pure ((hi * 16 + lo) :: rest)
      | _ => none
    else (unescape rest).map (b :: ·)

inductive Method
  | get
  | head
  | put
  | post
  | delete
deriving DecidableEq

/-- What routing and authorization see of a request: the URL's path as it was written,
which is well encoded, and decoded. -/
structure Request where
  method : Method
  escapedPath : Bytes
  path : Bytes
  decodes : unescape escapedPath = some path

/-- The segments of the escaped path after its leading slash, each decoded once.  The
router redirects a path that is not clean, and passes on no segment that decodes to a
slash. -/
def segments (escaped : Bytes) : Option (List Bytes) :=
  match escaped with
  | b :: rest =>
    if b = slash ∧ ∀ seg ∈ rest.splitOn slash, seg ∉ [[], ascii ".", ascii ".."] then
      ((rest.splitOn slash).mapM unescape).filter fun segs => [slash] ∉ segs
    else none
  | [] => none

/-! ## Routes -/

/-- The handlers of scope-addressed routes. -/
inductive Handler
  | putScope
  | getScope
  | scopeAction
  | putNode
  | getNode
  | deleteNode
  | listNodes
  | claim
  | nodeAction
  | putEdge
  | deleteEdge
  | getLease
  | leaseAction
  | events
deriving DecidableEq

/-- The routes under `/v1/scopes/{scope}`, by what follows the scope's segment. -/
def itemRoute (method : Method) (rest : List Bytes) : Option Handler :=
  match method, rest with
  | .put, [] => some .putScope
  | .get, [] | .head, [] => some .getScope
  | .post, [] => some .scopeAction
  | .post, [seg] => if seg = ascii "nodes:claim" then some .claim else none
  | .get, [seg] | .head, [seg] =>
    if seg = ascii "nodes" then some .listNodes
    else if seg = ascii "events" then some .events
    else none
  | .put, [coll, _] =>
    if coll = ascii "nodes" then some .putNode
    else if coll = ascii "edges" then some .putEdge
    else none
  | .get, [coll, _] | .head, [coll, _] =>
    if coll = ascii "nodes" then some .getNode
    else if coll = ascii "leases" then some .getLease
    else none
  | .delete, [coll, _] =>
    if coll = ascii "nodes" then some .deleteNode
    else if coll = ascii "edges" then some .deleteEdge
    else none
  | .post, [coll, _] =>
    if coll = ascii "nodes" then some .nodeAction
    else if coll = ascii "leases" then some .leaseAction
    else none
  | _, _ => none

/-- The handler a request is dispatched to, with the value of its first wildcard. -/
def dispatch (r : Request) : Option (Handler × Bytes) :=
  match segments r.escapedPath with
  | some (v1 :: scopes :: seg :: rest) =>
    if v1 = ascii "v1" ∧ scopes = ascii "scopes" then
      (itemRoute r.method rest).map fun h => (h, seg)
    else none
  | _ => none

def lastIndexByte : Bytes → UInt8 → Option ℕ
  | [], _ => none
  | c :: s, b =>
    match lastIndexByte s b with
    | some i => some (i + 1)
    | none => if c = b then some 0 else none

def splitVerb (segment : Bytes) : Option (Bytes × Bytes) :=
  match lastIndexByte segment colon with
  | some i =>
    if i = 0 ∨ i + 1 = segment.length then none
    else some (segment.take i, segment.drop (i + 1))
  | none => none

/-- The scope a handler works on; `handleScopeAction` has to split it from the verb, and
turns down verbs it does not know. -/
def Handler.scope (h : Handler) (segment : Bytes) : Option Bytes :=
  match h with
  | .scopeAction =>
    match splitVerb segment with
    | some (name, verb) =>
      if verb = ascii "seal" ∨ verb = ascii "cancel" then some name else none
    | none => none
  | _ => some segment

/-! ## Authorization -/

/-- `RequestScope`: the router's wildcard `scope` if there is one yet, and else the
decoded path's third segment up to its last colon. -/
def requestScope (pathValue path : Bytes) : Bytes :=
  if pathValue ≠ [] then pathValue
  else
    let pre := ascii "/v1/scopes/"
    if pre.isPrefixOf path then
      let p := (path.drop pre.length).takeWhile (· ≠ slash)
      match lastIndexByte p colon with
      | some i => if 0 < i then p.take i else p
      | none => p
    else []

/-! ## Decoding segment by segment -/

theorem unescape_cons_of_ne (h : b ≠ percent) (rest : Bytes) :
    unescape (b :: rest) = (unescape rest).map (b :: ·) := by
  match rest with
  | [] => simp [unescape, h]
  | [_] => simp [unescape, h]
  | _ :: _ :: _ => rw [unescape, if_neg h]

theorem unescape_percent (hi lo : UInt8) (rest : Bytes) :
    unescape (percent :: hi :: lo :: rest) = (do
      let hi ← unhex hi
      let lo ← unhex lo
      let rest ← unescape rest
      pure ((hi * 16 + lo) :: rest)) := by
  rw [unescape, if_pos rfl]

/-- A slash is no part of an escape sequence. -/
theorem unescape_append_slash (a b : Bytes) :
    unescape (a ++ slash :: b) = (do
      let a ← unescape a
      let b ← unescape b
      pure (a ++ slash :: b)) := by
  have hslash : slash ≠ percent := by decide
  have hhex : unhex slash = none := by decide
  induction a using unescape.induct with
  | case1 =>
    rw [List.nil_append, unescape_cons_of_ne hslash]
    cases unescape b <;> rfl
  | case2 hi lo rest ih =>
    rw [List.cons_append, List.cons_append, List.cons_append, unescape_percent,
      unescape_percent, ih]
    cases unhex hi with
    | none => rfl
    | some hi =>
      cases unhex lo with
      | none => rfl
      | some lo =>
        cases unescape rest with
        | none => rfl
        | some rest => cases unescape b <;> rfl
  | case3 rest hshort =>
    match rest, hshort with
    | [], _ =>
      cases b with
      | nil => rfl
      | cons c b =>
        rfl
    | [c], _ =>
      rw [List.cons_append, List.cons_append, List.nil_append, unescape_percent, hhex]
      cases unhex c <;> rfl
    | hi :: lo :: rest, hshort => exact absurd rfl (hshort hi lo rest)
  | case4 c rest hc ih =>
    rw [List.cons_append, unescape_cons_of_ne hc, unescape_cons_of_ne hc, ih]
    cases unescape rest with
    | none => rfl
    | some rest => cases unescape b <;> rfl

theorem unescape_intercalate {segs decoded : List Bytes} (hne : segs ≠ [])
    (h : segs.mapM unescape = some decoded) :
    unescape ([slash].intercalate segs) = some ([slash].intercalate decoded) := by
  induction segs generalizing decoded with
  | nil => exact absurd rfl hne
  | cons a segs ih =>
    simp only [List.mapM_cons, Option.bind_eq_bind, Option.bind_eq_some_iff, Option.pure_def,
      Option.some.injEq] at h
    obtain ⟨a', ha, rest, hrest, rfl⟩ := h
    cases segs with
    | nil =>
      obtain rfl : rest = [] := by simpa using hrest
      simpa using ha
    | cons b segs =>
      cases rest with
      | nil =>
        simp [List.mapM_cons, Option.bind_eq_some_iff] at hrest
      | cons b' rest =>
        rw [List.intercalate_cons_cons, List.append_assoc, List.singleton_append,
          unescape_append_slash, ih (List.cons_ne_nil _ _) hrest, ha,
          List.intercalate_cons_cons, List.append_assoc, List.singleton_append]
        rfl

/-- The decoded path is made of the decoded segments. -/
theorem path_eq_of_segments {escaped path : Bytes} {segs : List Bytes}
    (hpath : unescape escaped = some path) (hsegs : segments escaped = some segs) :
    path = slash :: [slash].intercalate segs := by
  cases escaped with
  | nil => cases hsegs
  | cons b body =>
    simp only [segments] at hsegs
    split at hsegs
    · rename_i hclean
      obtain ⟨rfl, -⟩ := hclean
      have hmap := (Option.filter_eq_some_iff.mp hsegs).1
      have hne : body.splitOn slash ≠ [] := List.splitOn_ne_nil _ _
      have hbody := unescape_intercalate hne hmap
      rw [List.intercalate_splitOn] at hbody
      rw [unescape_cons_of_ne (by decide), hbody] at hpath
      exact (Option.some.inj hpath).symm
    · cases hsegs

/-- A path that is dispatched to a scope-addressed handler. -/
theorem exists_path_eq {r : Request} {h : Handler} (hd : dispatch r = some (h, seg)) :
    ∃ rest, r.path = ascii "/v1/scopes/" ++ (seg ++ rest) ∧
      (rest = [] ∨ rest.head? = some slash) := by
  unfold dispatch at hd
  split at hd
  · rename_i v1 scopes seg' rest hsegs
    split at hd
    · rename_i hlits
      obtain ⟨rfl, rfl⟩ := hlits
      obtain ⟨h', -, heq⟩ := Option.map_eq_some_iff.mp hd
      cases heq
      have hpath := path_eq_of_segments r.decodes hsegs
      have hpre : ascii "/v1/scopes/" =
          slash :: (ascii "v1" ++ [slash] ++ (ascii "scopes" ++ [slash])) := by decide
      rw [hpath, hpre, List.intercalate_cons_cons, List.intercalate_cons_cons]
      cases rest with
      | nil => exact ⟨[], by simp, .inl rfl⟩
      | cons a rest =>
        refine ⟨slash :: [slash].intercalate (a :: rest), ?_, .inr rfl⟩
        simp
    · cases hd
  · cases hd

/-! ## The last colon -/

theorem lastIndexByte_eq_none : lastIndexByte s b = none ↔ b ∉ s := by
  induction s with
  | nil => simp [lastIndexByte]
  | cons c s ih =>
    rw [lastIndexByte]
    split
    · rename_i i hi
      have hmem : b ∈ s := by
        by_contra hout
        rw [ih.mpr hout] at hi
        cases hi
      simp [hmem]
    · rename_i hnone
      have hout := ih.mp hnone
      by_cases hc : c = b
      · simp [hc]
      · simp [hc, hout, Ne.symm hc]

theorem lastIndexByte_append {t : Bytes} (ht : b ∉ t) :
    lastIndexByte (s ++ b :: t) b = some s.length := by
  induction s with
  | nil =>
    rw [List.nil_append, lastIndexByte, lastIndexByte_eq_none.mpr ht]
    simp
  | cons c s ih =>
    rw [List.cons_append, lastIndexByte, ih]
    rfl

theorem eq_append_of_lastIndexByte {i : ℕ} (h : lastIndexByte s b = some i) :
    s = s.take i ++ b :: s.drop (i + 1) ∧ b ∉ s.drop (i + 1) ∧ i < s.length := by
  induction s generalizing i with
  | nil => cases h
  | cons c s ih =>
    rw [lastIndexByte] at h
    split at h
    · rename_i j hj
      cases h
      obtain ⟨heq, hout, hlt⟩ := ih hj
      refine ⟨?_, hout, Nat.succ_lt_succ hlt⟩
      exact congrArg (c :: ·) heq
    · rename_i hnone
      split at h
      · rename_i hc
        cases h
        subst hc
        exact ⟨rfl, lastIndexByte_eq_none.mp hnone, Nat.succ_pos _⟩
      · cases h

/-! ## Agreement -/

/-- `RequestScope` on what is left of the path after its fixed part. -/
def scopeOfSegment (p : Bytes) : Bytes :=
  match lastIndexByte p colon with
  | some i => if 0 < i then p.take i else p
  | none => p

theorem scopeOfSegment_prefix (p : Bytes) : scopeOfSegment p <+: p := by
  unfold scopeOfSegment
  split
  · split
    · exact List.take_prefix _ _
    · exact List.prefix_rfl
  · exact List.prefix_rfl

/-- The scope is not cut if it has no colon after its first byte. -/
theorem scopeOfSegment_eq_self {p : Bytes} : scopeOfSegment p = p ↔ colon ∉ p.drop 1 := by
  unfold scopeOfSegment
  split
  · rename_i i hi
    obtain ⟨heq, hout, hlt⟩ := eq_append_of_lastIndexByte hi
    cases i with
    | zero => simpa using hout
    | succ i =>
      have hshort : p.take (i + 1) ≠ p := by
        intro hfull
        have hlen := congrArg List.length hfull
        rw [List.length_take] at hlen
        omega
      have hmem : colon ∈ p.drop 1 := by
        have hget : (p.take (i + 1)).length = i + 1 := by
          rw [List.length_take]
          omega
        rw [heq, List.drop_append_of_le_length (by omega)]
        exact List.mem_append_right _ (.head _)
      exact iff_of_false hshort (not_not_intro hmem)
  · rename_i hnone
    have hout := lastIndexByte_eq_none.mp hnone
    exact iff_of_true rfl fun hmem => hout (List.mem_of_mem_drop hmem)

theorem requestScope_eq {r : Request} {h : Handler} (hd : dispatch r = some (h, seg)) :
    requestScope [] r.path = scopeOfSegment (seg.takeWhile (· ≠ slash)) := by
  obtain ⟨rest, hpath, hrest⟩ := exists_path_eq hd
  have hcut : (seg ++ rest).takeWhile (· ≠ slash) = seg.takeWhile (· ≠ slash) := by
    rw [List.takeWhile_append]
    split
    · rename_i hall
      have hseg := List.takeWhile_prefix (· ≠ slash) |>.eq_of_length hall
      rcases hrest with rfl | hrest
      · rw [List.takeWhile_nil, List.append_nil, hseg]
      cases rest with
      | nil => cases hrest
      | cons c rest =>
        obtain rfl : c = slash := Option.some.inj hrest
        rw [List.takeWhile_cons_of_neg (by simp), List.append_nil, hseg]
    · rfl
  rw [hpath, requestScope, if_neg (by simp)]
  simp only [List.drop_left, hcut]
  rfl

/-- The scope is one that `RequestScope` can tell from the path: it has no slash, and
except before a verb no colon after its first byte. -/
def Plain (h : Handler) (scope : Bytes) : Prop :=
  slash ∉ scope ∧ (h = .scopeAction ∨ colon ∉ scope.drop 1)

theorem notMem_slash_of_prefix {scope : Bytes} (h : scope <+: seg.takeWhile (· ≠ slash)) :
    slash ∉ scope := by
  intro hmem
  have hslash := List.mem_takeWhile_imp (h.subset hmem)
  simp at hslash

theorem takeWhile_eq_of_notMem (h : slash ∉ seg) : seg.takeWhile (· ≠ slash) = seg := by
  rw [List.takeWhile_eq_self_iff]
  intro b hb
  have hne : b ≠ slash := fun heq => h (heq ▸ hb)
  simpa using hne

/-- A scope that is a segment of its own. -/
theorem scopeOfSegment_takeWhile_iff :
    scopeOfSegment (seg.takeWhile (· ≠ slash)) = seg ↔ slash ∉ seg ∧ colon ∉ seg.drop 1 := by
  have hprefix := scopeOfSegment_prefix (seg.takeWhile (· ≠ slash))
  constructor
  · intro heq
    rw [heq] at hprefix
    have hslash := notMem_slash_of_prefix hprefix
    rw [takeWhile_eq_of_notMem hslash] at heq
    exact ⟨hslash, scopeOfSegment_eq_self.mp heq⟩
  · rintro ⟨hslash, hcolon⟩
    rw [takeWhile_eq_of_notMem hslash]
    exact scopeOfSegment_eq_self.mpr hcolon

theorem splitVerb_spec {name verb : Bytes} (h : splitVerb seg = some (name, verb)) :
    seg = name ++ colon :: verb ∧ colon ∉ verb ∧ name ≠ [] := by
  unfold splitVerb at h
  split at h
  · rename_i i hi
    obtain ⟨heq, hout, hlt⟩ := eq_append_of_lastIndexByte hi
    split at h
    · cases h
    rename_i hends
    cases h
    refine ⟨heq, hout, fun hnil => hends (.inl ?_)⟩
    have hlen := congrArg List.length hnil
    rw [List.length_take, List.length_nil] at hlen
    omega
  · cases h

/-- A scope with a verb behind it. -/
theorem scopeOfSegment_verb_iff {name verb : Bytes} (hcolon : colon ∉ verb) (hname : name ≠ [])
    (hverb : slash ∉ verb) :
    scopeOfSegment ((name ++ colon :: verb).takeWhile (· ≠ slash)) = name ↔ slash ∉ name := by
  have hprefix := scopeOfSegment_prefix ((name ++ colon :: verb).takeWhile (· ≠ slash))
  constructor
  · intro heq
    rw [heq] at hprefix
    exact notMem_slash_of_prefix hprefix
  intro hslash
  have hseg : slash ∉ name ++ colon :: verb := by
    simp only [List.mem_append, List.mem_cons, not_or]
    exact ⟨hslash, by decide, hverb⟩
  rw [takeWhile_eq_of_notMem hseg, scopeOfSegment, lastIndexByte_append hcolon]
  dsimp only
  rw [if_pos (List.length_pos_iff.mpr hname), List.take_left]

/-- **When authorization sees the scope that is acted on.** -/
theorem requestScope_eq_iff {r : Request} {h : Handler} {seg scope : Bytes}
    (hd : dispatch r = some (h, seg)) (hs : h.scope seg = some scope) :
    requestScope [] r.path = scope ↔ Plain h scope := by
  rw [requestScope_eq hd, Plain]
  by_cases haction : h = .scopeAction
  · subst haction
    simp only [Handler.scope] at hs
    split at hs
    · rename_i name verb hsplit
      split at hs
      · rename_i hverb
        cases hs
        obtain ⟨rfl, hcolon, hname⟩ := splitVerb_spec hsplit
        have hslash : slash ∉ verb := by
          rcases hverb with rfl | rfl <;> decide
        rw [scopeOfSegment_verb_iff hcolon hname hslash]
        simp
      · cases hs
    · cases hs
  · have hseg : seg = scope := by
      cases h <;> first | exact absurd rfl haction | exact Option.some.inj hs
    subst hseg
    rw [scopeOfSegment_takeWhile_iff]
    simp [haction]

/-- `POST /v1/scopes/team:a:seal`. -/
def sealRequest : Request :=
  { method := .post, escapedPath := ascii "/v1/scopes/team:a:seal",
    path := ascii "/v1/scopes/team:a:seal", decodes := by decide +kernel }

/-- `GET /v1/scopes/team:a/nodes`. -/
def listRequest : Request :=
  { method := .get, escapedPath := ascii "/v1/scopes/team:a/nodes",
    path := ascii "/v1/scopes/team:a/nodes", decodes := by decide +kernel }

/-- `GET /v1/scopes/team%2Fa`. -/
def slashRequest : Request :=
  { method := .get, escapedPath := ascii "/v1/scopes/team%2Fa",
    path := ascii "/v1/scopes/team/a", decodes := by decide +kernel }

theorem sealRequest_agrees :
    dispatch sealRequest = some (.scopeAction, ascii "team:a:seal") ∧
      Handler.scopeAction.scope (ascii "team:a:seal") = some (ascii "team:a") ∧
      requestScope [] sealRequest.path = ascii "team:a" := by
  have hd : dispatch sealRequest = some (.scopeAction, ascii "team:a:seal") := by decide +kernel
  have hs : Handler.scopeAction.scope (ascii "team:a:seal") = some (ascii "team:a") := by
    decide +kernel
  exact ⟨hd, hs, (requestScope_eq_iff hd hs).mpr ⟨by decide +kernel, .inl rfl⟩⟩

/-- The authorizer is asked about scope `team` while the handlers read scopes `team:a`
and `team/a`. -/
theorem listRequest_disagrees :
    (dispatch listRequest = some (.listNodes, ascii "team:a") ∧
      Handler.listNodes.scope (ascii "team:a") = some (ascii "team:a") ∧
      requestScope [] listRequest.path = ascii "team") ∧
    dispatch slashRequest = some (.getScope, ascii "team/a") ∧
      Handler.getScope.scope (ascii "team/a") = some (ascii "team/a") ∧
      requestScope [] slashRequest.path = ascii "team" := by
  decide +kernel

end DagWorker.Http
