import DagWorker.Redis.Scripts

/-!
# Error replies as text

A script reports an error as one line of words, `DWERR <CODE> <detail...>`, and
`mapScriptErr` splits that line at white space to find the error it names.  Identifiers
are written into the line as they are, and may contain white space themselves.
-/

namespace DagWorker.Redis

/-- The code of a reply and what the script writes after it, with the key prefix of the
scope and the way Lua writes a number.  A runtime error has a text of the server's own. -/
def ErrReply.words (p : String) (tostring : Int → String) : ErrReply → Option (List String)
  | .isSealed => some ["SEALED", p]
  | .batchSize n limit => some ["BATCHSIZE", tostring n, tostring limit]
  | .idConflict id => some ["IDCONFLICT", id]
  | .notFound id => some ["NOTFOUND", id]
  | .depNotFound id dep => some ["NOTFOUND", id, dep]
  | .fromNotFound id => some ["NOTFOUND-FROM", id]
  | .toNotFound id => some ["NOTFOUND-TO", id]
  | .terminal id => some ["TERMINAL", id]
  | .cycle source target => some ["CYCLE", source, target]
  | .cycleSelf id => some ["CYCLESELF", id]
  | .inFlight id => some ["INFLIGHT", id]
  | .hasSucc id n => some ["HASSUCC", id, tostring n]
  | .leaseMismatch id none => some ["LEASEMISMATCH", id]
  | .leaseMismatch id (some (epoch, presented)) =>
    some ["LEASEMISMATCH", id, tostring epoch, tostring presented]
  | .payloadCap size cap => some ["PAYLOADCAP", tostring size, tostring cap]
  | .crashed => none

/-- The line of a reply. -/
def ErrReply.line (p : String) (tostring : Int → String) (e : ErrReply) : Option (List Char) :=
  (e.words p tostring).map fun ws =>
    "DWERR ".toList ++ [' '].intercalate (ws.map String.toList)

/-! ## Reading the line -/

def isSpace (c : Char) : Bool :=
  let n := c.toNat
  (9 ≤ n && n ≤ 13) || n = 0x20 || n = 0x85 || n = 0xA0 || n = 0x1680 ||
    (0x2000 ≤ n && n ≤ 0x200A) || n = 0x2028 || n = 0x2029 || n = 0x202F || n = 0x205F ||
    n = 0x3000

def fields (s : List Char) : List String :=
  ((s.splitOnP isSpace).filter (· ≠ [])).map String.ofList

def scriptSentinels : String → Option Sentinel
  | "NOTFOUND" => some .notFound
  | "NOTFOUND-FROM" => some .notFound
  | "NOTFOUND-TO" => some .notFound
  | "IDCONFLICT" => some .idConflict
  | "SEALED" => some .scopeSealed
  | "TERMINAL" => some .alreadyTerminal
  | "HASSUCC" => some .hasSuccessors
  | "INFLIGHT" => some .nodeInFlight
  | "LEASEMISMATCH" => some .leaseMismatch
  | _ => none

def arg (args : List String) (i : ℕ) : String := args[i]?.getD ""

/-- `strconv.Atoi` of the numbers the scripts write, zero for anything else. -/
def atoi (s : String) : Int := s.toInt?.getD 0

/-- `mapScriptErr`; no error stands for the reply as it came. -/
def mapScriptErr (msg : List Char) (scope : String) : Option Err :=
  match "DWERR ".toList.isPrefixOf? msg with
  | none => none
  | some rest =>
    match fields rest with
    | [] => none
    | code :: args =>
      match scriptSentinels code with
      | some s =>
        let detail := " ".intercalate args
        some (if detail ≠ "" then .wrapped s detail else .bare s)
      | none =>
        match code with
        | "BATCHSIZE" => some (.invalidArg "specs" ("batch of " ++ arg args 0 ++
            " exceeds the scope's limit of " ++ arg args 1))
        | "PAYLOADCAP" => some (.payloadTooLarge (atoi (arg args 0)).toNat (atoi (arg args 1)))
        | "CYCLE" => some (.cycle scope (arg args 0) (arg args 1) [])
        | "CYCLESELF" => some (.wrapped .cycle ((arg args 0).quote ++ " depends on itself"))
        | _ => none

/-! ## Words with white space -/

/-- No character is white space. -/
def OneWord (s : String) : Prop := ∀ c ∈ s.toList, isSpace c = false

instance (s : String) : Decidable (OneWord s) := List.decidableBAll _ _

/-- White space is where the line is split. -/
theorem oneWord_of_mem_fields {s : List Char} {f : String} (h : f ∈ fields s) : OneWord f := by
  obtain ⟨w, hw, rfl⟩ := List.mem_map.mp h
  replace hw := List.mem_of_mem_filter hw
  rw [OneWord, String.toList_ofList]
  clear h
  induction s generalizing w with
  | nil => simp_all
  | cons c s ih =>
    rw [List.splitOnP_cons_eq_if_modifyHead] at hw
    split at hw
    · rcases List.mem_cons.mp hw with rfl | hw
      · simp
      · exact ih w hw
    rename_i hc
    cases hs : s.splitOnP isSpace with
    | nil => simp [hs] at hw
    | cons first others =>
      rw [hs] at ih hw
      rcases List.mem_cons.mp hw with rfl | hw
      · intro d hd
        rcases List.mem_cons.mp hd with rfl | hd
        · simpa using hc
        · exact ih first List.mem_cons_self d hd
      · exact ih w (List.mem_cons_of_mem _ hw)

theorem fields_cons {w : String} (hw : OneWord w) (hne : w ≠ "") (rest : List Char) :
    fields (w.toList ++ ' ' :: rest) = w :: fields rest := by
  rw [fields, List.splitOnP_append_cons_of_forall_mem hw ' ' rfl,
    List.filter_cons_of_pos (by simpa using hne), List.map_cons, String.ofList_toList, fields]

theorem fields_single {w : String} (hw : OneWord w) (hne : w ≠ "") :
    fields w.toList = [w] := by
  rw [fields, List.splitOnP_eq_singleton hw, List.filter_cons_of_pos (by simpa using hne)]
  simp

/-- A line of single words is taken apart into them. -/
theorem fields_intercalate {ws : List String} (hws : ∀ w ∈ ws, OneWord w ∧ w ≠ "") :
    fields ([' '].intercalate (ws.map String.toList)) = ws := by
  induction ws with
  | nil => rfl
  | cons w ws ih =>
    obtain ⟨hw, hne⟩ := hws w (.head _)
    cases ws with
    | nil =>
      rw [List.map_singleton, List.intercalate_singleton]
      exact fields_single hw hne
    | cons w' ws =>
      have ih := ih fun x hx => hws x (.tail _ hx)
      rw [List.map_cons, List.map_cons, List.intercalate_cons_cons, List.append_assoc,
        List.singleton_append, fields_cons hw hne, ← List.map_cons, ih]

/-- The ends that a cycle error names come from a split line. -/
theorem oneWord_of_mapScriptErr {msg : List Char} {scope scope' : String} {u v : NodeID}
    {path : List NodeID} (h : mapScriptErr msg scope = some (.cycle scope' u v path)) :
    OneWord u ∧ OneWord v := by
  unfold mapScriptErr at h
  split at h
  · cases h
  split at h
  · cases h
  rename_i code args hfields
  have harg : ∀ i, OneWord (arg args i) := by
    intro i
    rw [arg]
    cases hi : args[i]? with
    | none => decide
    | some w =>
      exact oneWord_of_mem_fields (hfields ▸ List.mem_cons_of_mem _ (List.mem_of_getElem? hi))
  split at h
  · dsimp only at h
    split at h <;> cases h
  split at h <;> cases h
  exact ⟨harg 0, harg 1⟩

/-- What `mapScriptErr` makes of a reply.  No error stands for one it passes on. -/
def ErrReply.mapped (p : String) (tostring : Int → String) (e : ErrReply) (scope : String) :
    Option Err :=
  (e.line p tostring).bind (mapScriptErr · scope)

/-- **Cycle errors.**  The error made of the reply names the rejected edge exactly if
neither identifier contains white space. -/
theorem mapScriptErr_cycle_iff (p : String) (tostring : Int → String) (scope : String)
    {u v : NodeID} (hu : validateNodeID u = .ok ()) (hv : validateNodeID v = .ok ()) :
    (ErrReply.cycle u v).mapped p tostring scope = some (.cycle scope u v []) ↔
      OneWord u ∧ OneWord v := by
  have hne : ∀ {w : NodeID}, validateNodeID w = .ok () → w ≠ "" := by
    rintro w hw rfl
    cases hw
  set rest := [' '].intercalate (["CYCLE", u, v].map String.toList)
  have hmapped : (ErrReply.cycle u v).mapped p tostring scope =
      mapScriptErr ("DWERR ".toList ++ rest) scope := rfl
  rw [hmapped]
  refine ⟨oneWord_of_mapScriptErr, ?_⟩
  rintro ⟨hu', hv'⟩
  have hfields : fields rest = ["CYCLE", u, v] := by
    refine fields_intercalate fun w hw => ?_
    simp only [List.mem_cons, List.not_mem_nil, or_false] at hw
    rcases hw with rfl | rfl | rfl
    · decide
    · exact ⟨hu', hne hu⟩
    · exact ⟨hv', hne hv⟩
  have hcut : "DWERR ".toList.isPrefixOf? ("DWERR ".toList ++ rest) = some rest := rfl
  rw [mapScriptErr, hcut]
  simp only [hfields]
  rfl

/-- An edge from `a b` to `c` is reported as one from `a` to `b`. -/
theorem mapScriptErr_splits :
    validateNodeID "a b" = .ok () ∧ validateNodeID "c" = .ok () ∧
      (ErrReply.cycle "a b" "c").mapped "p" toString "s" = some (.cycle "s" "a" "b" []) :=
  ⟨by decide, by decide, by decide +kernel⟩

theorem mapScriptErr_keeps :
    (ErrReply.cycle "a" "b").mapped "p" toString "s" = some (.cycle "s" "a" "b" []) :=
  (mapScriptErr_cycle_iff "p" toString "s" (by decide) (by decide)).mpr ⟨by decide, by decide⟩

end DagWorker.Redis
