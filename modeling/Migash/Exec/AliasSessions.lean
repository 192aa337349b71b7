import Migash.Library.Heap
import Migash.Library.Runs

/-! # The aliases of a parse session

`exec_create` makes an alias store, and a session that is created now works with
it. When the top frame is set up the store becomes the frame's, and the executor
has none left to give: a session that is created or hard-reset from then on gets
a store of its own, which no alias ever reaches.
-/

namespace Migash.Exec

open Library

/-! ## Alias stores -/

/-- `alias_store_t`. -/
abbrev AliasStore := List (String × String)

namespace AliasStore

/-- `alias_store_add`: an alias of the same name is replaced. -/
def add (store : AliasStore) (name value : String) : AliasStore :=
  if store.any (·.1 = name) then
    store.modify (store.findIdx (·.1 = name)) fun _ => (name, value)
  else store ++ [(name, value)]

/-- `alias_store_remove`. -/
def remove (store : AliasStore) (name : String) : AliasStore := store.eraseP (·.1 = name)

theorem add_ne_nil (store : AliasStore) (name value : String) : store.add name value ≠ [] := by
  intro h
  have hlength := congrArg List.length h
  unfold add at hlength
  split_ifs at hlength with hany
  · rw [List.length_modify, List.length_nil, List.length_eq_zero_iff] at hlength
    simp [hlength] at hany
  · simp at hlength

end AliasStore

/-! ## Sessions -/

/-- `parse_session_t`, as far as its aliases go: what the session owns, and the store of its
tokenizer, if it has one yet. -/
structure ParseSession where
  ownAliases : Bool := false
  aliases : Option ℕ := none
  tokenizer : Option (Option ℕ) := none
  deriving DecidableEq, Repr

/-- The alias stores, the pointers to them, and the sessions that have been handed out. -/
structure AliasState where
  heap : Heap AliasStore := {}
  /-- `executor->aliases` -/
  execAliases : Option ℕ := none
  /-- `top_frame->aliases`; none before the frame is set up -/
  frameAliases : Option ℕ := none
  sessions : Heap ParseSession := {}

/-- `exec_create`. -/
def execCreate : AliasState :=
  let (p, heap) := ({} : Heap AliasStore).alloc []
  { heap, execAliases := some p }

namespace AliasState

variable (s : AliasState)

/-- `exec_frame_create_top_level`, unless the frame is there already. -/
def createTopLevel : AliasState :=
  match s.frameAliases with
  | some _ => s
  | none =>
    let (p, heap) := s.heap.alloc []
    match s.execAliases with
    | none => { s with heap, frameAliases := some p }
    | some aliases =>
      { s with heap := heap.free p, frameAliases := some aliases, execAliases := none }

/-- The session of `parse_session_create`. -/
def newSession (aliases : Option ℕ) : ParseSession × AliasState :=
  match aliases with
  | some p => ({ ownAliases := false, aliases := some p, tokenizer := some (some p) }, s)
  | none =>
    let (p, heap) := s.heap.alloc []
    ({ ownAliases := true, aliases := some p, tokenizer := some (some p) }, { s with heap })

/-- `parse_session_create`, called by `exec_create_parse_session`. -/
def parseSessionCreate : AliasState :=
  let (session, s) := s.newSession s.execAliases
  { s with sessions := (s.sessions.alloc session).2 }

/-- `parse_session_destroy`. -/
def parseSessionDestroy (p : ℕ) : AliasState :=
  match s.sessions.get p with
  | none => s
  | some session =>
    { s with
      heap :=
        if session.ownAliases then (session.aliases.map s.heap.free).getD s.heap else s.heap
      sessions := s.sessions.free p }

/-- The alias part of `parse_session_hard_reset`. -/
def hardReset (session : ParseSession) (aliases : Option ℕ) : ParseSession × AliasState :=
  match session.ownAliases, aliases with
  | false, aliases => s.newSession aliases
  | true, none =>
    ({ session with tokenizer := some session.aliases },
      { s with heap := (session.aliases.map fun own => s.heap.set own []).getD s.heap })
  | true, some aliases =>
    ({ ownAliases := false, aliases := some aliases, tokenizer := some (some aliases) },
      { s with heap := (session.aliases.map s.heap.free).getD s.heap })

/-- `parse_session_hard_reset`, and `exec_hard_reset_parse_session` with an executor or without. -/
def parseSessionHardReset (p : ℕ) (withExecutor : Bool) : AliasState :=
  match s.sessions.get p with
  | none => s
  | some session =>
    let (session, s) := s.hardReset session (if withExecutor then s.execAliases else none)
    { s with sessions := s.sessions.set p session }

/-- What `exec_execute_command_string_partial_cstr` does before it feeds a line to a session. -/
def beginLine (p : ℕ) : AliasState :=
  let s := s.createTopLevel
  match s.sessions.get p with
  | none => s
  | some session =>
    match session.tokenizer with
    | some _ => s
    | none =>
      { s with sessions := s.sessions.set p { session with tokenizer := some s.execAliases } }

/-- A change of the store of `get_alias_store` in the top frame. -/
def changeAliases (f : AliasStore → AliasStore) : AliasState :=
  match s.frameAliases with
  | none => s
  | some p =>
    match s.heap.get p with
    | none => s
    | some store => { s with heap := s.heap.set p (f store) }

/-- The contents of the store behind a pointer. -/
def contents (p : Option ℕ) : AliasStore := (p.bind s.heap.get).getD []

end AliasState

/-! ## Runs -/

/-- What happens to a shell. The REPL and the line-editor loop are a `setUp`, a `create`, a `line`
for each line they read and a `hardReset` for an interrupt; `exec_execute_command_string`, an `eval`
and a trap are a `setUp`, a `create`, a `line` and a `destroy`. -/
inductive AliasStep where
  | setUp
  | create
  /-- a session of zero bytes, which is allowed for lines fed one by one -/
  | zeroed
  | line (session : ℕ)
  | hardReset (session : ℕ) (withExecutor : Bool)
  | destroy (session : ℕ)
  /-- `frame_set_alias` -/
  | alias_ (name value : String)
  /-- `frame_remove_alias` -/
  | unalias (name : String)
  /-- `frame_clear_all_aliases` -/
  | unaliasAll

namespace AliasStep

def run (s : AliasState) : AliasStep → AliasState
  | .setUp => s.createTopLevel
  | .create => s.parseSessionCreate
  | .zeroed => { s with sessions := (s.sessions.alloc {}).2 }
  | .line session => s.beginLine session
  | .hardReset session withExecutor => s.parseSessionHardReset session withExecutor
  | .destroy session => s.parseSessionDestroy session
  | .alias_ name value => s.changeAliases fun store => store.add name value
  | .unalias name => s.changeAliases fun store => store.remove name
  | .unaliasAll => s.changeAliases fun _ => []

end AliasStep

/-- The shell after some steps. -/
def afterSteps (steps : List AliasStep) : AliasState := steps.foldl AliasStep.run execCreate

namespace AliasState

/-- Every tokenizer sees the aliases of the top frame. -/
def InSync (s : AliasState) : Prop :=
  ∀ p session t, s.sessions.get p = some session → session.tokenizer = some t →
    s.frameAliases.isSome = true → s.contents t = s.contents s.frameAliases

/-- Every tokenizer works with the store of the top frame itself. -/
def Shares (s : AliasState) : Prop :=
  ∀ p session t, s.sessions.get p = some session → session.tokenizer = some t → t = s.frameAliases

end AliasState

/-- An alias is defined only while every tokenizer works with the frame's store. A tokenizer that
will not do so comes into being only while no alias is defined. -/
def AliasStep.KeepsSync (s : AliasState) : AliasStep → Prop
  | .alias_ _ _ => s.frameAliases = none ∨ s.Shares
  | .create => s.contents s.frameAliases = []
  | .hardReset p _ => s.sessions.get p ≠ none → s.contents s.frameAliases = []
  | .line p =>
    (∃ session ∈ s.sessions.get p, ParseSession.tokenizer session = none) →
      s.contents s.frameAliases = []
  | _ => True

/-! ## Pointers -/

namespace AliasState

/-- The store at `e` is the executor's, and empty, until the top frame takes it over. What a session
owns is empty and its own; any other session works with the store at `e`, or with none. -/
structure Sound (e : ℕ) (s : AliasState) : Prop where
  place :
    s.execAliases = some e ∧ s.frameAliases = none ∧ s.heap.get e = some [] ∨
      s.execAliases = none ∧ s.frameAliases = some e ∧ (s.heap.get e).isSome = true
  own : ∀ p session, s.sessions.get p = some session → session.ownAliases = true →
    ∃ a, session.aliases = some a ∧ a ≠ e ∧ s.heap.get a = some []
  distinct : ∀ p q session session', s.sessions.get p = some session →
    s.sessions.get q = some session' → session.ownAliases = true → session'.ownAliases = true →
    session.aliases = session'.aliases → p = q
  notOwn : ∀ p session, s.sessions.get p = some session → session.ownAliases = false →
    session.aliases = none ∨ session.aliases = some e
  tokenizer : ∀ p session t, s.sessions.get p = some session → session.tokenizer = some t →
    t = session.aliases
  zeroed : ∀ p session, s.sessions.get p = some session → session.tokenizer = none → session = {}

variable {e : ℕ} {s : AliasState}

/-- A tokenizer works with the frame's store or with one that is empty. -/
theorem Sound.contents_tokenizer (h : s.Sound e) {p : ℕ} {session : ParseSession} {t : Option ℕ}
    (hp : s.sessions.get p = some session) (ht : session.tokenizer = some t) :
    t = some e ∨ t ≠ some e ∧ s.contents t = [] := by
  rw [h.tokenizer p session t hp ht]
  cases hown : session.ownAliases with
  | true =>
    obtain ⟨a, ha, hne, hget⟩ := h.own p session hp hown
    refine .inr ⟨?_, ?_⟩
    · simpa [ha] using hne
    · simp [contents, ha, hget]
  | false =>
    obtain hnone | hshared := h.notOwn p session hp hown
    · exact .inr ⟨by simp [hnone], by simp [contents, hnone]⟩
    · exact .inl hshared

theorem Sound.inSync_iff (h : s.Sound e) :
    s.InSync ↔ s.contents s.frameAliases = [] ∨ s.Shares := by
  obtain ⟨hexec, hframe, hempty⟩ | ⟨hexec, hframe, hlive⟩ := h.place
  · refine iff_of_true ?_ (.inl (by simp [contents, hframe]))
    intro p session t _ _ hsome
    simp [hframe] at hsome
  · constructor
    · intro hsync
      by_cases hdefined : s.contents s.frameAliases = []
      · exact .inl hdefined
      · refine .inr fun p session t hp ht => ?_
        obtain heq | ⟨-, hnil⟩ := h.contents_tokenizer hp ht
        · rw [heq, hframe]
        · have hsame := hsync p session t hp ht (by simp [hframe])
          exact absurd (hsame.symm.trans hnil) hdefined
    · rintro (hnil | hshares) p session t hp ht -
      · obtain heq | ⟨-, hempty⟩ := h.contents_tokenizer hp ht
        · rw [heq, hframe]
        · rw [hempty, hnil]
      · rw [hshares p session t hp ht]

/-- A tokenizer with another store than the frame's is in sync while no alias is defined. -/
theorem Sound.inSync_iff_of_apart (h : s.Sound e) {p : ℕ} {session : ParseSession} {t : Option ℕ}
    (hp : s.sessions.get p = some session) (ht : session.tokenizer = some t) (hne : t ≠ some e) :
    s.InSync ↔ s.contents s.frameAliases = [] := by
  rw [h.inSync_iff]
  refine ⟨?_, .inl⟩
  rintro (hnil | hshares)
  · exact hnil
  · obtain ⟨-, hframe, -⟩ | ⟨-, hframe, -⟩ := h.place
    · simp [hframe, contents]
    · exact absurd ((hshares p session t hp ht).trans hframe) hne

/-- Before the top frame is there nothing can be out of sync. -/
theorem inSync_of_frame (hframe : s.frameAliases = none) : s.InSync := by
  intro p session t _ _ hsome
  simp [hframe] at hsome

theorem contents_none (hframe : s.frameAliases = none) : s.contents s.frameAliases = [] := by
  simp [hframe, contents]

theorem contents_eq {s' : AliasState} (hframe : s'.frameAliases = s.frameAliases)
    (hheap : ∀ a, s.frameAliases = some a → s'.heap.get a = s.heap.get a) :
    s'.contents s'.frameAliases = s.contents s.frameAliases := by
  unfold contents
  rw [hframe]
  cases h : s.frameAliases with
  | none => rfl
  | some a =>
    rw [Option.bind_some, Option.bind_some, hheap a h]

theorem Sound.ne_of_own (h : s.Sound e) {p : ℕ} {session : ParseSession} {a : ℕ}
    (hp : s.sessions.get p = some session) (hown : session.ownAliases = true)
    (ha : session.aliases = some a) : a ≠ e ∧ s.heap.get a = some [] := by
  obtain ⟨a', ha', hne, hget⟩ := h.own p session hp hown
  cases ha.symm.trans ha'
  exact ⟨hne, hget⟩

/-- One session is new or changed, and no store changes that another pointer leads to. -/
theorem Sound.put (h : s.Sound e) {s' : AliasState} {p : ℕ} {session : ParseSession}
    (hexec : s'.execAliases = s.execAliases) (hframe : s'.frameAliases = s.frameAliases)
    (hself : s'.sessions.get p = some session)
    (hothers : ∀ q, q ≠ p → s'.sessions.get q = s.sessions.get q)
    (hshared : s'.heap.get e = s.heap.get e)
    (hheap : ∀ q session' a, q ≠ p → s.sessions.get q = some session' →
      session'.ownAliases = true → session'.aliases = some a → s'.heap.get a = s.heap.get a)
    (hown : session.ownAliases = true → ∃ a, session.aliases = some a ∧ a ≠ e ∧
      s'.heap.get a = some [] ∧ ∀ q session', q ≠ p → s.sessions.get q = some session' →
        session'.ownAliases = true → session'.aliases ≠ some a)
    (hnotOwn : session.ownAliases = false → session.aliases = none ∨ session.aliases = some e)
    (htokenizer : ∀ t, session.tokenizer = some t → t = session.aliases)
    (hzeroed : session.tokenizer = none → session = {}) : s'.Sound e where
  place := by
    rw [hexec, hframe, hshared]
    exact h.place
  own q session' hq hq' := by
    by_cases hqp : q = p
    · subst hqp
      cases hself.symm.trans hq
      obtain ⟨a, ha, hne, hget, -⟩ := hown hq'
      exact ⟨a, ha, hne, hget⟩
    · rw [hothers q hqp] at hq
      obtain ⟨a, ha, hne, hget⟩ := h.own q session' hq hq'
      exact ⟨a, ha, hne, (hheap q session' a hqp hq hq' ha).trans hget⟩
  distinct q r sq sr hq hr hq' hr' heq := by
    by_cases hqp : q = p
    · by_cases hrp : r = p
      · rw [hqp, hrp]
      · subst hqp
        cases hself.symm.trans hq
        rw [hothers r hrp] at hr
        obtain ⟨a, ha, -, -, hfresh⟩ := hown hq'
        exact absurd (heq.symm.trans ha) (hfresh r sr hrp hr hr')
    · by_cases hrp : r = p
      · subst hrp
        cases hself.symm.trans hr
        rw [hothers q hqp] at hq
        obtain ⟨a, ha, -, -, hfresh⟩ := hown hr'
        exact absurd (heq.trans ha) (hfresh q sq hqp hq hq')
      · rw [hothers q hqp] at hq
        rw [hothers r hrp] at hr
        exact h.distinct q r sq sr hq hr hq' hr' heq
  notOwn q session' hq hq' := by
    by_cases hqp : q = p
    · subst hqp
      cases hself.symm.trans hq
      exact hnotOwn hq'
    · rw [hothers q hqp] at hq
      exact h.notOwn q session' hq hq'
  tokenizer q session' t hq ht := by
    by_cases hqp : q = p
    · subst hqp
      cases hself.symm.trans hq
      exact htokenizer t ht
    · rw [hothers q hqp] at hq
      exact h.tokenizer q session' t hq ht
  zeroed q session' hq ht := by
    by_cases hqp : q = p
    · subst hqp
      cases hself.symm.trans hq
      exact hzeroed ht
    · rw [hothers q hqp] at hq
      exact h.zeroed q session' hq ht

/-! ## Steps -/

/-- What a new or reset session looks like: it takes the store it is given, or gets an empty one. -/
theorem Sound.newSession_put (h : s.Sound e) {p : ℕ} {aliases : Option ℕ}
    (haliases : aliases = none ∨ aliases = some e) {sessions : Heap ParseSession}
    (hself : sessions.get p = some (s.newSession aliases).1)
    (hothers : ∀ q, q ≠ p → sessions.get q = s.sessions.get q) :
    ({ (s.newSession aliases).2 with sessions } : AliasState).Sound e := by
  obtain rfl | rfl := haliases
  · have hfresh : ∀ {a : ℕ} {store : AliasStore}, s.heap.get a = some store →
        a ≠ s.heap.cells.length := fun hget => Nat.ne_of_lt (Heap.lt_of_get hget)
    have hlive : ∃ store, s.heap.get e = some store := by
      obtain ⟨-, -, hempty⟩ | ⟨-, -, hsome⟩ := h.place
      · exact ⟨[], hempty⟩
      · exact Option.isSome_iff_exists.mp hsome
    obtain ⟨store, hstore⟩ := hlive
    refine h.put rfl rfl hself hothers (Heap.get_alloc_of_ne _ (hfresh hstore) _) ?_ ?_ ?_ ?_ fun h => by cases h
    · intro q session' a _ hq hown ha
      exact Heap.get_alloc_of_ne _ (hfresh (h.ne_of_own hq hown ha).2) _
    · intro _
      refine ⟨s.heap.cells.length, rfl, (hfresh hstore).symm, Heap.get_alloc_self _ _, ?_⟩
      intro q session' _ hq hown ha
      exact hfresh (h.ne_of_own hq hown ha).2 rfl
    · intro hown
      cases hown
    · rintro t ⟨⟩
      rfl
  · refine h.put rfl rfl hself hothers rfl (fun _ _ _ _ _ _ _ => rfl) ?_ ?_ ?_ fun h => by cases h
    · intro hown
      cases hown
    · exact fun _ => .inr rfl
    · rintro t ⟨⟩
      rfl

/-- The pointer that a session is given. -/
theorem Sound.execAliases_eq (h : s.Sound e) : s.execAliases = none ∨ s.execAliases = some e := by
  obtain ⟨hexec, -⟩ | ⟨hexec, -⟩ := h.place
  · exact .inr hexec
  · exact .inl hexec

theorem parseSessionCreate_eq (s : AliasState) :
    s.parseSessionCreate =
      { (s.newSession s.execAliases).2 with
        sessions := (s.sessions.alloc (s.newSession s.execAliases).1).2 } := by
  unfold AliasState.parseSessionCreate newSession
  cases s.execAliases <;> rfl

theorem Sound.parseSessionCreate (h : s.Sound e) : s.parseSessionCreate.Sound e := by
  rw [parseSessionCreate_eq]
  exact h.newSession_put h.execAliases_eq (Heap.get_alloc_self _ _)
    fun q hq => Heap.get_alloc_of_ne _ hq _

/-- A session that gets a store of its own has no part in the frame's. -/
theorem Sound.inSync_newSession_iff (h : s.Sound e) {p : ℕ} {aliases : Option ℕ}
    (haliases : aliases = none ∨ aliases = s.execAliases) {sessions : Heap ParseSession}
    (hself : sessions.get p = some (s.newSession aliases).1)
    (hothers : ∀ q, q ≠ p → sessions.get q = s.sessions.get q) :
    ({ (s.newSession aliases).2 with sessions } : AliasState).InSync ↔
      s.contents s.frameAliases = [] := by
  have hshared : aliases = none ∨ aliases = some e := by
    obtain rfl | rfl := haliases
    · exact .inl rfl
    · exact h.execAliases_eq
  have hsound := h.newSession_put hshared hself hothers
  obtain ⟨hexec, hframe, hempty⟩ | ⟨hexec, hframe, hlive⟩ := h.place
  · refine iff_of_true (inSync_of_frame ?_) (contents_none hframe)
    obtain rfl | rfl := hshared <;> exact hframe
  · have hnone : aliases = none := by
      obtain hnone | hsame := haliases
      · exact hnone
      · exact hsame.trans hexec
    subst hnone
    obtain ⟨store, hstore⟩ := Option.isSome_iff_exists.mp hlive
    have hne : e ≠ s.heap.cells.length := Nat.ne_of_lt (Heap.lt_of_get hstore)
    refine (hsound.inSync_iff_of_apart hself rfl (by simpa using hne.symm)).trans ?_
    refine Iff.of_eq (congrArg (· = []) (contents_eq rfl fun a ha => ?_))
    cases hframe.symm.trans ha
    exact Heap.get_alloc_of_ne _ hne _

theorem Sound.inSync_parseSessionCreate_iff (h : s.Sound e) :
    s.parseSessionCreate.InSync ↔ s.contents s.frameAliases = [] := by
  rw [parseSessionCreate_eq]
  exact h.inSync_newSession_iff (.inr rfl) (Heap.get_alloc_self _ _)
    fun q hq => Heap.get_alloc_of_ne _ hq _

/-- A hard reset gives the session a new store, or empties or frees the one it owns. -/
theorem parseSessionHardReset_eq {p : ℕ} {session : ParseSession}
    (hp : s.sessions.get p = some session) (withExecutor : Bool) :
    s.parseSessionHardReset p withExecutor =
      let r := s.hardReset session (if withExecutor then s.execAliases else none)
      { r.2 with sessions := s.sessions.set p r.1 } := by
  have hsessions : ∀ aliases, (s.hardReset session aliases).2.sessions = s.sessions := by
    intro aliases
    unfold hardReset newSession
    cases session.ownAliases <;> cases aliases <;> rfl
  simp only [parseSessionHardReset, hp, hsessions]

/-- The session owned its store. -/
theorem Sound.hardReset_own (h : s.Sound e) {p : ℕ} {session : ParseSession}
    (hp : s.sessions.get p = some session) (hown : session.ownAliases = true) {aliases : Option ℕ}
    (haliases : aliases = none ∨ aliases = s.execAliases) {sessions : Heap ParseSession}
    (hself : sessions.get p = some (s.hardReset session aliases).1)
    (hothers : ∀ q, q ≠ p → sessions.get q = s.sessions.get q) :
    ({ (s.hardReset session aliases).2 with sessions } : AliasState).Sound e ∧
      (({ (s.hardReset session aliases).2 with sessions } : AliasState).InSync ↔
        s.contents s.frameAliases = []) := by
  obtain ⟨a, ha, hne, hget⟩ := h.own p session hp hown
  have hfresh : ∀ q session', q ≠ p → s.sessions.get q = some session' →
      session'.ownAliases = true → session'.aliases ≠ some a := by
    intro q session' hq hq' hown' ha'
    exact hq (h.distinct q p session' session hq' hp hown' hown (ha'.trans ha.symm))
  cases aliases with
  | none =>
    have hreset : s.hardReset session none =
        ({ session with tokenizer := some session.aliases }, { s with heap := s.heap.set a [] }) := by
      simp only [hardReset, hown, ha, Option.map_some, Option.getD_some]
    rw [hreset] at hself ⊢
    have hheap : ∀ b, (s.heap.set a []).get b = s.heap.get b := by
      intro b
      by_cases hb : b = a
      · rw [hb, Heap.get_set_self (Heap.lt_of_get hget), hget]
      · exact Heap.get_set_of_ne _ hb _
    have hsound : ({ s with heap := s.heap.set a [], sessions } : AliasState).Sound e := by
      refine h.put rfl rfl hself hothers (hheap e) (fun _ _ b _ _ _ _ => hheap b) ?_ ?_ ?_ fun h => by cases h
      · exact fun _ => ⟨a, ha, hne, (hheap a).trans hget, hfresh⟩
      · intro hnot
        cases hown.symm.trans hnot
      · rintro t ⟨⟩
        rfl
    refine ⟨hsound, (hsound.inSync_iff_of_apart hself rfl (by simpa [ha] using hne)).trans ?_⟩
    exact Iff.of_eq (congrArg (· = []) (contents_eq rfl fun b _ => hheap b))
  | some shared =>
    have hexec : s.execAliases = some shared := by
      obtain hnone | hsame := haliases
      · cases hnone
      · exact hsame.symm
    obtain ⟨hexec', hframe, hempty⟩ | ⟨hexec', -, -⟩ := h.place
    · cases hexec.symm.trans hexec'
      have hreset : s.hardReset session (some e) =
          ({ ownAliases := false, aliases := some e, tokenizer := some (some e) },
            { s with heap := s.heap.free a }) := by
        simp only [hardReset, hown, ha, Option.map_some, Option.getD_some]
      rw [hreset] at hself ⊢
      refine ⟨?_, iff_of_true (inSync_of_frame hframe) (contents_none hframe)⟩
      refine h.put rfl rfl hself hothers (Heap.get_free_of_ne _ hne.symm) ?_ ?_ ?_ ?_ fun h => by cases h
      · intro q session' b hq hq' hown' hb
        refine Heap.get_free_of_ne _ fun heq => hfresh q session' hq hq' hown' ?_
        rw [hb, heq]
      · intro hnot
        cases hnot
      · exact fun _ => .inr rfl
      · rintro t ⟨⟩
        rfl
    · cases hexec.symm.trans hexec'

theorem Sound.parseSessionHardReset (h : s.Sound e) (p : ℕ) (withExecutor : Bool) :
    (s.parseSessionHardReset p withExecutor).Sound e ∧ (s.InSync →
      ((s.parseSessionHardReset p withExecutor).InSync ↔
        (s.sessions.get p ≠ none → s.contents s.frameAliases = []))) := by
  cases hp : s.sessions.get p with
  | none =>
    have hsame : s.parseSessionHardReset p withExecutor = s := by
      simp only [AliasState.parseSessionHardReset, hp]
    rw [hsame]
    exact ⟨h, fun hsync => iff_of_true hsync fun hnot => absurd rfl hnot⟩
  | some session =>
    have haliases : (if withExecutor then s.execAliases else none) = none ∨
        (if withExecutor then s.execAliases else none) = s.execAliases := by
      cases withExecutor
      · exact .inl rfl
      · exact .inr rfl
    rw [parseSessionHardReset_eq hp]
    generalize (if withExecutor then s.execAliases else none) = aliases at haliases
    have hself : ∀ session', (s.sessions.set p session').get p = some session' :=
      fun session' => Heap.get_set_self (Heap.lt_of_get hp) session'
    have hothers : ∀ session' q, q ≠ p → (s.sessions.set p session').get q = s.sessions.get q :=
      fun session' q hq => Heap.get_set_of_ne _ hq session'
    have hdrop : (some session ≠ none → s.contents s.frameAliases = []) ↔
        s.contents s.frameAliases = [] := by simp
    rw [hdrop]
    cases hown : session.ownAliases with
    | true =>
      obtain ⟨hsound, hiff⟩ := h.hardReset_own hp hown haliases (hself _) (hothers _)
      exact ⟨hsound, fun _ => hiff⟩
    | false =>
      have hreset : s.hardReset session aliases = s.newSession aliases := by
        simp only [hardReset, hown]
      have hshared : aliases = none ∨ aliases = some e := by
        obtain rfl | rfl := haliases
        · exact .inl rfl
        · exact h.execAliases_eq
      rw [hreset]
      exact ⟨h.newSession_put hshared (hself _) (hothers _),
        fun _ => h.inSync_newSession_iff haliases (hself _) (hothers _)⟩

/-- The set-up of the top frame moves a pointer and changes no store. -/
theorem Sound.createTopLevel (h : s.Sound e) :
    s.createTopLevel.Sound e ∧ (s.InSync → s.createTopLevel.InSync) ∧
      s.createTopLevel.sessions = s.sessions ∧ s.createTopLevel.execAliases = none ∧
      s.createTopLevel.contents s.createTopLevel.frameAliases = s.contents s.frameAliases := by
  obtain ⟨hexec, hframe, hempty⟩ | ⟨hexec, hframe, hlive⟩ := h.place
  · have hheap : ((s.heap.alloc []).2.free s.heap.cells.length).get = s.heap.get :=
      Heap.get_free_of_alloc (Heap.get_length _) fun q hq => Heap.get_alloc_of_ne _ hq _
    have hafter : s.createTopLevel =
        { s with
          heap := (s.heap.alloc []).2.free s.heap.cells.length
          frameAliases := some e
          execAliases := none } := by
      simp only [AliasState.createTopLevel, hframe, hexec]
      rfl
    have hcontents : s.createTopLevel.contents s.createTopLevel.frameAliases = [] := by
      simp [hafter, contents, hheap, hempty]
    have hsound : s.createTopLevel.Sound e := by
      rw [hafter]
      constructor
      · exact .inr ⟨rfl, rfl, by simp [hheap, hempty]⟩
      · intro p session hp hown
        obtain ⟨a, ha, hne, hget⟩ := h.own p session hp hown
        exact ⟨a, ha, hne, by simpa [hheap] using hget⟩
      · exact h.distinct
      · exact h.notOwn
      · exact h.tokenizer
      · exact h.zeroed
    refine ⟨hsound, fun _ => hsound.inSync_iff.mpr (.inl hcontents), ?_, ?_, ?_⟩
    · rw [hafter]
    · rw [hafter]
    · rw [hcontents, contents_none hframe]
  · have hafter : s.createTopLevel = s := by
      simp only [AliasState.createTopLevel, hframe]
    rw [hafter]
    exact ⟨h, id, rfl, hexec, rfl⟩

/-- A session without a tokenizer gets one without aliases, since the executor has none left. -/
theorem Sound.beginLine (h : s.Sound e) (p : ℕ) :
    (s.beginLine p).Sound e ∧ (s.InSync →
      ((s.beginLine p).InSync ↔
        ((∃ session ∈ s.sessions.get p, ParseSession.tokenizer session = none) →
          s.contents s.frameAliases = []))) := by
  obtain ⟨hsound, hsync, hsessions, hexec, hcontents⟩ := h.createTopLevel
  rw [← hsessions, ← hcontents]
  unfold AliasState.beginLine
  generalize s.createTopLevel = u at hsound hsync hexec
  cases hp : u.sessions.get p with
  | none =>
    simp only [hp]
    refine ⟨hsound, fun h => iff_of_true (hsync h) ?_⟩
    rintro ⟨session, hmem, -⟩
    cases hmem
  | some session =>
    simp only [hp]
    cases ht : session.tokenizer with
    | some t =>
      refine ⟨hsound, fun h => iff_of_true (hsync h) ?_⟩
      rintro ⟨session', hmem, hnone⟩
      cases hmem
      cases ht.symm.trans hnone
    | none =>
      have hzero := hsound.zeroed p session hp ht
      subst hzero
      have hself : (u.sessions.set p { tokenizer := some u.execAliases }).get p =
          some { tokenizer := some u.execAliases } := Heap.get_set_self (Heap.lt_of_get hp) _
      have hafter : ({ u with sessions := u.sessions.set p { tokenizer := some u.execAliases } } :
          AliasState).Sound e := by
        refine hsound.put rfl rfl hself (fun q hq => Heap.get_set_of_ne _ hq _) rfl
          (fun _ _ _ _ _ _ _ => rfl) (fun h => by cases h) (fun _ => .inl rfl) ?_
          fun h => by cases h
        rintro t ⟨⟩
        exact hexec
      refine ⟨hafter, fun _ => ?_⟩
      rw [hafter.inSync_iff_of_apart hself rfl (by simp [hexec])]
      exact ⟨fun hnil _ => hnil, fun hall => hall ⟨_, rfl, rfl⟩⟩

theorem Sound.zeroedSession (h : s.Sound e) :
    ({ s with sessions := (s.sessions.alloc {}).2 } : AliasState).Sound e := by
  refine h.put rfl rfl (Heap.get_alloc_self _ _) (fun q hq => Heap.get_alloc_of_ne _ hq _) rfl
    (fun _ _ _ _ _ _ _ => rfl) (fun h => by cases h) (fun _ => .inl rfl) (fun _ h => by cases h)
    fun _ => rfl

/-- A session that is gone takes its own store with it. -/
theorem Sound.parseSessionDestroy (h : s.Sound e) (p : ℕ) :
    (s.parseSessionDestroy p).Sound e ∧ (s.InSync → (s.parseSessionDestroy p).InSync) := by
  cases hp : s.sessions.get p with
  | none =>
    have hsame : s.parseSessionDestroy p = s := by
      simp only [AliasState.parseSessionDestroy, hp]
    rw [hsame]
    exact ⟨h, id⟩
  | some session =>
    obtain ⟨heap, hheap, hkeeps⟩ : ∃ heap : Heap AliasStore,
        s.parseSessionDestroy p = { s with heap, sessions := s.sessions.free p } ∧
        ∀ b, (session.ownAliases = true → session.aliases ≠ some b) → heap.get b = s.heap.get b := by
      refine ⟨_, by simp only [AliasState.parseSessionDestroy, hp]; rfl, ?_⟩
      intro b hb
      split_ifs with hown
      · cases ha : session.aliases with
        | none => rfl
        | some a =>
          refine Heap.get_free_of_ne _ fun heq => hb hown ?_
          rw [ha, heq]
      · rfl
    have hgone : ∀ q session', (s.sessions.free p).get q = some session' →
        q ≠ p ∧ s.sessions.get q = some session' := by
      intro q session' hq
      by_cases hqp : q = p
      · rw [hqp, Heap.get_free_self] at hq
        cases hq
      · rw [Heap.get_free_of_ne _ hqp] at hq
        exact ⟨hqp, hq⟩
    have hshared : heap.get e = s.heap.get e :=
      hkeeps e fun hown ha => (h.ne_of_own hp hown ha).1 rfl
    have hsound : ({ s with heap, sessions := s.sessions.free p } : AliasState).Sound e := by
      constructor
      · rw [hshared]
        exact h.place
      · intro q session' hq hown
        obtain ⟨hqp, hq⟩ := hgone q session' hq
        obtain ⟨a, ha, hne, hget⟩ := h.own q session' hq hown
        refine ⟨a, ha, hne, (hkeeps a fun hown' ha' => ?_).trans hget⟩
        exact hqp (h.distinct q p session' session hq hp hown hown' (ha.trans ha'.symm))
      · intro q r sq sr hq hr
        exact h.distinct q r sq sr (hgone q sq hq).2 (hgone r sr hr).2
      · exact fun q session' hq => h.notOwn q session' (hgone q session' hq).2
      · exact fun q session' t hq => h.tokenizer q session' t (hgone q session' hq).2
      · exact fun q session' hq => h.zeroed q session' (hgone q session' hq).2
    rw [hheap]
    refine ⟨hsound, fun hsync => hsound.inSync_iff.mpr ?_⟩
    obtain hnil | hshares := h.inSync_iff.mp hsync
    · have hcontents : ({ s with heap, sessions := s.sessions.free p } : AliasState).contents
          s.frameAliases = s.contents s.frameAliases := by
        refine contents_eq rfl fun a ha => ?_
        obtain ⟨-, hframe, -⟩ | ⟨-, hframe, -⟩ := h.place
        · cases hframe.symm.trans ha
        · cases hframe.symm.trans ha
          exact hshared
      exact .inl (hcontents.trans hnil)
    · exact .inr fun q session' t hq ht => hshares q session' t (hgone q session' hq).2 ht

/-- A change of the frame's aliases. -/
theorem Sound.changeAliases (h : s.Sound e) (f : AliasStore → AliasStore) :
    (s.changeAliases f).Sound e ∧ (s.InSync →
      ((s.changeAliases f).InSync ↔
        s.frameAliases = none ∨ f (s.contents s.frameAliases) = [] ∨ s.Shares)) := by
  obtain ⟨hexec, hframe, hempty⟩ | ⟨hexec, hframe, hlive⟩ := h.place
  · have hsame : s.changeAliases f = s := by
      simp only [AliasState.changeAliases, hframe]
    rw [hsame]
    exact ⟨h, fun hsync => iff_of_true hsync (.inl hframe)⟩
  · obtain ⟨store, hstore⟩ := Option.isSome_iff_exists.mp hlive
    have hafter : s.changeAliases f = { s with heap := s.heap.set e (f store) } := by
      simp only [AliasState.changeAliases, hframe, hstore]
    have hget : (s.heap.set e (f store)).get e = some (f store) :=
      Heap.get_set_self (Heap.lt_of_get hstore) _
    have hsound : ({ s with heap := s.heap.set e (f store) } : AliasState).Sound e := by
      constructor
      · exact .inr ⟨hexec, hframe, by rw [hget]; rfl⟩
      · intro p session hp hown
        obtain ⟨a, ha, hne, hempty⟩ := h.own p session hp hown
        exact ⟨a, ha, hne, (Heap.get_set_of_ne _ hne _).trans hempty⟩
      · exact h.distinct
      · exact h.notOwn
      · exact h.tokenizer
      · exact h.zeroed
    rw [hafter]
    refine ⟨hsound, fun _ => ?_⟩
    have hcontents : s.contents s.frameAliases = store := by simp [contents, hframe, hstore]
    have hcontents' : ({ s with heap := s.heap.set e (f store) } : AliasState).contents
        s.frameAliases = f store := by
      simp [contents, hframe, hget]
    rw [hsound.inSync_iff, hcontents]
    constructor
    · rintro (hnil | hshares)
      · exact .inr (.inl (hcontents'.symm.trans hnil))
      · exact .inr (.inr hshares)
    · rintro (hnone | hnil | hshares)
      · cases hframe.symm.trans hnone
      · exact .inl (hcontents'.trans hnil)
      · exact .inr hshares

end AliasState

/-! ## Whole runs -/

namespace AliasStep

variable {e : ℕ} {s : AliasState}

theorem sound_run (h : s.Sound e) (step : AliasStep) : (step.run s).Sound e := by
  cases step with
  | setUp => exact h.createTopLevel.1
  | create => exact h.parseSessionCreate
  | zeroed => exact h.zeroedSession
  | line session => exact (h.beginLine session).1
  | hardReset session withExecutor => exact (h.parseSessionHardReset session withExecutor).1
  | destroy session => exact (h.parseSessionDestroy session).1
  | alias_ name value => exact (h.changeAliases _).1
  | unalias name => exact (h.changeAliases _).1
  | unaliasAll => exact (h.changeAliases _).1

/-- One step keeps the tokenizers in sync exactly if it is one that may. -/
theorem inSync_run_iff (h : s.Sound e) (hsync : s.InSync) (step : AliasStep) :
    (step.run s).InSync ↔ step.KeepsSync s := by
  cases step with
  | setUp => exact iff_of_true (h.createTopLevel.2.1 hsync) trivial
  | create => exact h.inSync_parseSessionCreate_iff
  | zeroed =>
    refine iff_of_true (h.zeroedSession.inSync_iff.mpr ?_) trivial
    obtain hnil | hshares := h.inSync_iff.mp hsync
    · exact .inl hnil
    · refine .inr fun p session t hp ht => ?_
      by_cases hnew : p = s.sessions.cells.length
      · rw [hnew, Heap.get_alloc_self] at hp
        cases hp
        cases ht
      · rw [Heap.get_alloc_of_ne _ hnew] at hp
        exact hshares p session t hp ht
  | line session => exact (h.beginLine session).2 hsync
  | hardReset session withExecutor => exact (h.parseSessionHardReset session withExecutor).2 hsync
  | destroy session => exact iff_of_true ((h.parseSessionDestroy session).2 hsync) trivial
  | alias_ name value =>
    refine ((h.changeAliases _).2 hsync).trans ?_
    simp [KeepsSync, AliasStore.add_ne_nil]
  | unalias name =>
    refine iff_of_true (((h.changeAliases _).2 hsync).mpr ?_) trivial
    obtain hnil | hshares := h.inSync_iff.mp hsync
    · exact .inr (.inl (by rw [hnil]; rfl))
    · exact .inr (.inr hshares)
  | unaliasAll => exact iff_of_true (((h.changeAliases _).2 hsync).mpr (.inr (.inl rfl))) trivial

end AliasStep

/-- In every state of a run the tokenizers work with the aliases of the top frame, exactly if every
step of the run keeps it so. -/
theorem afterSteps_inSync_iff (steps : List AliasStep) :
    (∀ before, before <+: steps → (afterSteps before).InSync) ↔
      ∀ before step, before ++ [step] <+: steps → step.KeepsSync (afterSteps before) := by
  have hempty : ∀ p, execCreate.sessions.get p = none := fun p => rfl
  have hstart : execCreate.Sound 0 := by
    constructor
    · exact .inl ⟨rfl, rfl, rfl⟩
    · intro p session hp
      cases (hempty p).symm.trans hp
    · intro p q session session' hp
      cases (hempty p).symm.trans hp
    · intro p session hp
      cases (hempty p).symm.trans hp
    · intro p session t hp
      cases (hempty p).symm.trans hp
    · intro p session hp
      cases (hempty p).symm.trans hp
  have hstep : ∀ step ∈ steps, ∀ s : AliasState, s.Sound 0 ∧ s.InSync →
      ((step.run s).Sound 0 ∧ (step.run s).InSync ↔ step.KeepsSync s) := by
    rintro step - s ⟨hsound, hsync⟩
    rw [and_iff_right (step.sound_run hsound)]
    exact step.inSync_run_iff hsound hsync
  have hsound : ∀ before, (afterSteps before).Sound 0 :=
    foldl_invariant (fun _ step h => step.sound_run h) hstart
  have hsync : execCreate.InSync := AliasState.inSync_of_frame rfl
  have hrun := forall_prefix_iff (P := fun s : AliasState => s.Sound 0 ∧ s.InSync)
    (Q := fun (step : AliasStep) s => step.KeepsSync s) hstep ⟨hstart, hsync⟩
  exact (forall₂_congr fun before _ => (and_iff_right (hsound before)).symm).trans hrun

/-- The first `alias` of a REPL does not reach the session that reads the lines. -/
theorem repl_out_of_sync :
    ¬ (afterSteps [.setUp, .create, .line 0, .alias_ "ll" "ls -l"]).InSync := by
  intro h
  have hsame := h 0 { ownAliases := true, aliases := some 2, tokenizer := some (some 2) } (some 2)
    (by decide +kernel) rfl (by decide +kernel)
  exact absurd hsame (by decide +kernel)

end Migash.Exec
