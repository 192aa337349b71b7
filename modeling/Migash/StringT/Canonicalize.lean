import Migash.StringT.Split
import Mathlib.Data.List.Flatten

/-! # Canonical paths

`cd_canonicalize_string` keeps the components that are left of a path on a list
of strings, from which a `..` takes the last. What that list stands for is a
route: so many levels up, and from there down through the names.
-/

namespace Migash.Strings

open Library

/-! ## The function -/

section

variable (junk : Junk)

/-- `string_front`. -/
def stringFront (str : StringT) : Except MemoryFault UInt8 :=
  if str.length ≤ 0 then return 0 else byteAt str 0

/-- `string_empty`. -/
def stringEmpty (str : StringT) : Bool := str.length = 0

/-- `strcmp` finds no difference. -/
def strcmpEqual : List UInt8 → List UInt8 → Except MemoryFault Bool
  | a :: first, b :: second =>
    if a ≠ b then return false
    else if a = 0 then return true
    else strcmpEqual first second
  | _, _ => checked none

/-- `string_eq_cstr`. -/
def stringEqCstr (str : StringT) (cstr : List UInt8) : Except MemoryFault Bool :=
  strcmpEqual str.buffer (cstr ++ [0])

/-- `SLASHES`. -/
def slashes : List UInt8 := [47, 92]

/-- The component `.`. -/
def dot : List UInt8 := [46]

/-- The component `..`. -/
def dotdot : List UInt8 := [46, 46]

/-- There is a last part, and it is no `..`. -/
def cdEndsInName (parts : List StringT) : Except MemoryFault Bool :=
  match parts.getLast? with
  | none => return false
  | some last => return !(← stringEqCstr last dotdot)

/-- What the loop does about a `..`. -/
def cdParent (rooted : Bool) (parts : List StringT) : Except MemoryFault (List StringT) := do
  if ← cdEndsInName parts then return parts.dropLast
  else if !rooted then
    let copy ← stringCreateFromCstr junk (some dotdot)
    return parts ++ [copy]
  else return parts

/-- One turn of the loop. -/
def cdComponent (rooted : Bool) (parts : List StringT) (comp : StringT) :
    Except MemoryFault (List StringT) := do
  if stringEmpty comp then return parts
  else if ← stringEqCstr comp dot then return parts
  else if ← stringEqCstr comp dotdot then cdParent junk rooted parts
  else
    let copy ← stringCreateFrom junk comp
    return parts ++ [copy]

/-- What is made of the parts that are left. -/
def cdJoinParts (rooted : Bool) (parts : List StringT) : Except MemoryFault StringT := do
  let out ← strlistJoin junk parts [47]
  let out ← if rooted then stringInsertCstr junk out 0 (some [47]) else pure out
  if stringEmpty out then stringSetCstr junk out (some (if rooted then [47] else dot))
  else return out

/-- `cd_canonicalize_string`, for `n` turns of the loop that splits the path. -/
def cdCanonicalizeString (n : ℕ) :
    Option StringT → Except MemoryFault (Option StringT)
  | none => some <$> stringCreateFromCstr junk (some dot)
  | some path => do
    if stringEmpty path then return some (← stringCreateFromCstr junk (some dot))
    let front ← stringFront path
    let rooted := front = 47 || front = 92
    match ← strlistCreateFromStringSplitCstr junk n path slashes with
    | none => return none
    | some raw =>
      let parts ← raw.foldlM (cdComponent junk rooted) []
      some <$> cdJoinParts junk rooted parts

end

/-! ## Routes -/

/-- A way through the directories: up some levels, and from there down. -/
structure Route where
  ups : ℕ
  names : List (List UInt8)

namespace Route

/-- The route goes on with one more component. There is nothing above the root. -/
def step (rooted : Bool) (route : Route) (part : List UInt8) : Route :=
  if part = [] ∨ part = dot then route
  else if part ≠ dotdot then { route with names := route.names ++ [part] }
  else if route.names ≠ [] then { route with names := route.names.dropLast }
  else if rooted then route
  else { route with ups := route.ups + 1 }

/-- The components of a path, resolved from left to right. -/
def resolve (rooted : Bool) (parts : List (List UInt8)) : Route :=
  parts.foldl (step rooted) ⟨0, []⟩

/-- The components that are left. -/
def parts (route : Route) : List (List UInt8) := List.replicate route.ups dotdot ++ route.names

end Route

/-- A byte at which paths are split. -/
def isSlash (ch : UInt8) : Bool := slashes.contains ch

/-- The path starts at the root. -/
def isRooted (path : List UInt8) : Bool := path.head?.any isSlash

/-- The components of a path, behind the slash of the root if it has one. -/
def components (path : List UInt8) : List (List UInt8) :=
  (if isRooted path then path.tail else path).splitOnP isSlash

/-- The path written out. -/
def pathText (rooted : Bool) (parts : List (List UInt8)) : List UInt8 :=
  if rooted then 47 :: List.intercalate [47] parts
  else if parts = [] then dot
  else List.intercalate [47] parts

/-- A component that is the name of something. -/
structure Ordinary (part : List UInt8) : Prop where
  ne_nil : part ≠ []
  ne_dot : part ≠ dot
  ne_dotdot : part ≠ dotdot
  noSlash : ∀ ch ∈ part, isSlash ch = false

namespace Route

variable {rooted : Bool} {route : Route} {part : List UInt8}

/-- What every route is that comes from a path. -/
structure Sound (rooted : Bool) (route : Route) : Prop where
  ordinary : ∀ name ∈ route.names, Ordinary name
  root : rooted → route.ups = 0

theorem Sound.start (rooted : Bool) : Sound rooted ⟨0, []⟩ where
  ordinary := fun _ hmem => absurd hmem List.not_mem_nil
  root := fun _ => rfl

theorem Sound.step (h : Sound rooted route) (hpart : ∀ ch ∈ part, isSlash ch = false) :
    Sound rooted (route.step rooted part) := by
  rw [Route.step]
  split_ifs with hskip hname hnames hroot
  · exact h
  · exact {
      ordinary := fun name hmem => (List.mem_append.mp hmem).elim (h.ordinary name) fun hmem => by
        obtain rfl := List.mem_singleton.mp hmem
        exact ⟨fun hnil => hskip (.inl hnil), fun hdot => hskip (.inr hdot), hname, hpart⟩
      root := h.root }
  · exact { ordinary := fun name hmem => h.ordinary name (List.mem_of_mem_dropLast hmem)
            root := h.root }
  · exact h
  · exact { ordinary := h.ordinary, root := fun hrooted => absurd hrooted hroot }

theorem Sound.resolve {parts : List (List UInt8)}
    (hparts : ∀ part ∈ parts, ∀ ch ∈ part, isSlash ch = false) :
    Sound rooted (Route.resolve rooted parts) := by
  have hrun : ∀ route, Sound rooted route →
      Sound rooted (parts.foldl (Route.step rooted) route) := by
    induction parts with
    | nil => exact fun _ h => h
    | cons part parts ih =>
      intro route h
      exact ih (fun part hmem => hparts part (List.mem_cons_of_mem _ hmem)) _
        (h.step (hparts part List.mem_cons_self))
  exact hrun _ (.start rooted)

/-- A step leaves at most the new component over. -/
theorem step_sublist (rooted : Bool) (route : Route) (part : List UInt8) :
    (route.step rooted part).parts.Sublist (route.parts ++ [part]) := by
  rw [step]
  split_ifs with hskip hname hnames hroot
  · exact List.sublist_append_left _ _
  · rw [parts, parts, ← List.append_assoc]
  · rw [parts, parts, List.append_assoc]
    exact (List.Sublist.refl _).append
      ((List.dropLast_sublist _).trans (List.sublist_append_left _ _))
  · exact List.sublist_append_left _ _
  · have hnil : route.names = [] := not_not.mp hnames
    rw [parts, parts, hnil, List.append_nil, List.append_nil, List.replicate_succ',
      not_not.mp hname]

theorem resolve_sublist (rooted : Bool) (all : List (List UInt8)) :
    (resolve rooted all).parts.Sublist all := by
  induction all using List.reverseRecOn with
  | nil => exact List.Sublist.slnil
  | append_singleton all part ih =>
    rw [resolve, List.foldl_append]
    exact (step_sublist rooted _ part).trans (ih.append (List.Sublist.refl _))

theorem foldl_step_ups (n : ℕ) (hroot : rooted → n = 0) :
    (List.replicate n dotdot).foldl (step rooted) ⟨0, []⟩ = ⟨n, []⟩ := by
  induction n with
  | zero => rfl
  | succ n ih =>
    have hrooted : ¬ rooted = true := fun hr => absurd (hroot hr) (Nat.succ_ne_zero n)
    rw [List.replicate_succ', List.foldl_append, ih fun hr => absurd hr hrooted, List.foldl_cons,
      List.foldl_nil, step, if_neg (by decide), if_neg (not_not.mpr rfl), if_neg (not_not.mpr rfl),
      if_neg hrooted]

theorem foldl_step_names {names : List (List UInt8)} (hnames : ∀ name ∈ names, Ordinary name)
    (route : Route) :
    names.foldl (step rooted) route = ⟨route.ups, route.names ++ names⟩ := by
  induction names generalizing route with
  | nil => rw [List.append_nil, List.foldl_nil]
  | cons name names ih =>
    have hname := hnames name List.mem_cons_self
    have hskip : ¬ (name = [] ∨ name = dot) := fun hs => hs.elim hname.ne_nil hname.ne_dot
    rw [List.foldl_cons, ih fun name hmem => hnames name (List.mem_cons_of_mem _ hmem), step,
      if_neg hskip, if_pos hname.ne_dotdot, List.append_assoc, List.singleton_append]

/-- Nothing is left to resolve in what is left. -/
theorem Sound.resolve_parts (h : Sound rooted route) :
    Route.resolve rooted route.parts = route := by
  rw [Route.resolve, parts, List.foldl_append, foldl_step_ups _ h.root,
    foldl_step_names h.ordinary, List.nil_append]

/-- Where a component leads from a place in a tree of directories without links. -/
def enter (place : List (List UInt8)) (part : List UInt8) : List (List UInt8) :=
  if part = [] ∨ part = dot then place
  else if part ≠ dotdot then place ++ [part]
  else place.dropLast

theorem Sound.leads_step (h : Sound rooted route) {place : List (List UInt8)}
    (hplace : rooted → place = []) (part : List UInt8) :
    (route.step rooted part).parts.foldl enter place =
      enter (route.parts.foldl enter place) part := by
  rw [Route.step, enter]
  split_ifs with hskip hname hnames hroot
  · rfl
  · rw [parts, ← List.append_assoc, List.foldl_append, List.foldl_cons, List.foldl_nil, enter,
      if_neg hskip, if_pos hname]
    rfl
  · obtain ⟨init, last, hlast⟩ := (List.eq_nil_or_concat route.names).resolve_left hnames
    rw [List.concat_eq_append] at hlast
    have hordinary := h.ordinary last (hlast ▸ List.mem_concat_self)
    have hkeep : ¬ (last = [] ∨ last = dot) := fun hs =>
      hs.elim hordinary.ne_nil hordinary.ne_dot
    rw [parts, parts, hlast, List.dropLast_concat, ← List.append_assoc,
      @List.foldl_append _ _ _ _ (_ ++ _) [last], List.foldl_cons, List.foldl_nil, enter,
      if_neg hkeep, if_pos hordinary.ne_dotdot, List.dropLast_concat]
  · have hnone : route.parts = [] := by
      rw [parts, h.root hroot, not_not.mp hnames]
      rfl
    rw [hnone, List.foldl_nil, hplace hroot]
    rfl
  · rw [parts, parts, not_not.mp hnames, List.append_nil, List.append_nil, List.replicate_succ',
      List.foldl_append, List.foldl_cons, List.foldl_nil, enter, if_neg (by decide),
      if_neg (not_not.mpr rfl)]

/-- What is left leads where the whole path leads. -/
theorem leads_resolve {all : List (List UInt8)}
    (hall : ∀ part ∈ all, ∀ ch ∈ part, isSlash ch = false) {place : List (List UInt8)}
    (hplace : rooted → place = []) :
    (resolve rooted all).parts.foldl enter place = all.foldl enter place := by
  induction all using List.reverseRecOn with
  | nil => rfl
  | append_singleton all part ih =>
    have hinit : ∀ part ∈ all, ∀ ch ∈ part, isSlash ch = false := fun part hmem =>
      hall part (List.mem_append_left _ hmem)
    rw [resolve, List.foldl_append, List.foldl_append, List.foldl_cons, List.foldl_nil,
      List.foldl_cons, List.foldl_nil, ← ih hinit]
    exact (Sound.resolve hinit).leads_step hplace part

theorem Sound.noSlash (h : Sound rooted route) :
    ∀ part ∈ route.parts, ∀ ch ∈ part, isSlash ch = false := by
  intro part hpart
  rcases List.mem_append.mp hpart with hup | hname
  · rw [List.eq_of_mem_replicate hup]
    have hall : dotdot.all (fun ch => !isSlash ch) = true := rfl
    exact fun ch hch => Bool.not_eq_true' _ ▸ List.all_eq_true.mp hall ch hch
  · exact (h.ordinary part hname).noSlash

theorem Sound.ne_nil (h : Sound rooted route) (hpart : part ∈ route.parts) : part ≠ [] := by
  rcases List.mem_append.mp hpart with hup | hname
  · rw [List.eq_of_mem_replicate hup]
    decide
  · exact (h.ordinary part hname).ne_nil

theorem Sound.ne_dot (h : Sound rooted route) (hpart : part ∈ route.parts) : part ≠ dot := by
  rcases List.mem_append.mp hpart with hup | hname
  · rw [List.eq_of_mem_replicate hup]
    decide
  · exact (h.ordinary part hname).ne_dot

end Route

/-! ## The text of a route -/

section Text

variable {parts : List (List UInt8)} {l : List UInt8}

theorem splitOnP_intercalate (hsome : parts ≠ [])
    (hfree : ∀ part ∈ parts, ∀ ch ∈ part, isSlash ch = false) :
    (List.intercalate [47] parts).splitOnP isSlash = parts := by
  induction parts with
  | nil => exact absurd rfl hsome
  | cons part parts ih =>
    have hpart := hfree part List.mem_cons_self
    cases parts with
    | nil => rw [List.intercalate_singleton, List.splitOnP_eq_singleton hpart]
    | cons next parts =>
      rw [List.intercalate_cons_cons, List.append_assoc, List.singleton_append,
        List.splitOnP_append_cons_of_forall_mem hpart 47 rfl,
        ih (List.cons_ne_nil _ _) fun part hmem => hfree part (List.mem_cons_of_mem _ hmem)]

/-- The length with a slash behind every part, the last one too. -/
theorem length_intercalate_succ (hsome : parts ≠ []) :
    (List.intercalate [47] parts).length + 1 = (parts.flatMap (· ++ [(47 : UInt8)])).length := by
  induction parts with
  | nil => exact absurd rfl hsome
  | cons part parts ih =>
    cases parts with
    | nil => simp
    | cons next parts =>
      rw [List.intercalate_cons_cons, List.flatMap_cons, List.length_append, Nat.add_assoc,
        ih (List.cons_ne_nil _ _), ← List.length_append]

theorem length_flatMap_splitOnP (p : UInt8 → Bool) (l : List UInt8) :
    ((l.splitOnP p).flatMap (· ++ [(47 : UInt8)])).length = l.length + 1 := by
  induction l with
  | nil => rfl
  | cons ch l ih =>
    obtain ⟨first, rest, hsplit⟩ := List.exists_cons_of_ne_nil (List.splitOnP_ne_nil p l)
    rw [List.splitOnP_cons_eq_if_modifyHead]
    rw [hsplit, List.flatMap_cons, List.length_append] at ih
    split
    · rw [hsplit, List.flatMap_cons, List.length_append, List.flatMap_cons,
        @List.length_append _ (first ++ [47]), ih, List.length_cons]
      exact Nat.add_comm _ _
    · rw [hsplit, List.modifyHead_cons, List.flatMap_cons, List.length_append, List.cons_append,
        List.length_cons, Nat.add_right_comm, ih, List.length_cons]

/-- Parts that a path is split into are not longer together than the path. -/
theorem length_intercalate_le (h : parts.Sublist (l.splitOnP isSlash)) :
    (List.intercalate [47] parts).length ≤ l.length := by
  by_cases hsome : parts = []
  · rw [hsome]
    exact Nat.zero_le _
  · have hle := (h.flatMap (· ++ [(47 : UInt8)])).length_le
    rw [length_flatMap_splitOnP, ← length_intercalate_succ hsome] at hle
    exact Nat.le_of_succ_le_succ hle

end Text

section Route

variable {rooted : Bool} {route : Route}

theorem intercalate_ne_nil (h : route.Sound rooted) (hsome : route.parts ≠ []) :
    List.intercalate [47] route.parts ≠ [] := by
  obtain ⟨part, parts, hparts⟩ := List.exists_cons_of_ne_nil hsome
  have hpart : part ≠ [] := h.ne_nil (hparts ▸ List.mem_cons_self)
  rw [hparts, intercalate_cons]
  exact List.append_ne_nil_of_left_ne_nil hpart _

theorem pathText_ne_nil (h : route.Sound rooted) : pathText rooted route.parts ≠ [] := by
  rw [pathText]
  split_ifs with hrooted hnil
  · exact List.cons_ne_nil _ _
  · exact List.cons_ne_nil _ _
  · exact intercalate_ne_nil h hnil

theorem isRooted_pathText (h : route.Sound rooted) :
    isRooted (pathText rooted route.parts) = rooted := by
  rw [pathText]
  split_ifs with hrooted hnil
  · exact hrooted.symm
  · rw [eq_false_of_ne_true hrooted]
    rfl
  · rw [eq_false_of_ne_true hrooted]
    obtain ⟨part, parts, hparts⟩ := List.exists_cons_of_ne_nil hnil
    have hmem : part ∈ route.parts := by
      rw [hparts]
      exact List.mem_cons_self
    obtain ⟨ch, rest, hpart⟩ := List.exists_cons_of_ne_nil (h.ne_nil hmem)
    have hch : isSlash ch = false := h.noSlash part hmem ch (hpart ▸ List.mem_cons_self)
    rw [hparts, hpart, isRooted, intercalate_cons, List.cons_append, List.head?_cons,
      Option.any_some, hch]

theorem isRooted_iff {path : List UInt8} :
    isRooted path ↔ path.head? = some 47 ∨ path.head? = some 92 := by
  cases path with
  | nil => simp [isRooted]
  | cons ch path => simp [isRooted, isSlash, slashes]

theorem head?_pathText (h : route.Sound rooted) :
    (pathText rooted route.parts).head? = some 47 ↔ rooted := by
  cases rooted with
  | true => exact ⟨fun _ => rfl, fun _ => rfl⟩
  | false =>
    have hnot := isRooted_pathText h
    exact ⟨fun hhead => (isRooted_iff.mpr (.inl hhead)).symm.trans hnot |>.symm, nofun⟩

theorem components_pathText (h : route.Sound rooted) (hsome : route.parts ≠ []) :
    components (pathText rooted route.parts) = route.parts := by
  have hsplit := splitOnP_intercalate hsome h.noSlash
  rw [components, isRooted_pathText h, pathText]
  cases rooted with
  | true => exact hsplit
  | false =>
    rw [if_neg Bool.false_ne_true, if_neg Bool.false_ne_true, if_neg hsome]
    exact hsplit

theorem pathText_nil : pathText rooted [] = if rooted then [47] else dot := by
  rw [pathText, if_pos rfl]
  rfl

theorem components_pathText_nil :
    components (pathText rooted []) = if rooted then [[]] else [dot] := by
  cases rooted <;> rfl

/-- A route is what its text is resolved to. -/
theorem resolve_pathText (h : route.Sound rooted) :
    Route.resolve (isRooted (pathText rooted route.parts))
      (components (pathText rooted route.parts)) = route := by
  rw [isRooted_pathText h]
  by_cases hsome : route.parts = []
  · have hroute := h.resolve_parts
    rw [hsome] at hroute
    rw [hsome, components_pathText_nil, ← hroute]
    cases rooted <;> rfl
  · rw [components_pathText h hsome, h.resolve_parts]

end Route

/-! ## What is canonical -/

section Canonical

variable {path out : List UInt8}

/-- The route that a path leads. -/
def routeOf (path : List UInt8) : Route := .resolve (isRooted path) (components path)

theorem sound_routeOf (path : List UInt8) : (routeOf path).Sound (isRooted path) :=
  .resolve fun _ hpart _ hch => splitOnP_free hpart hch

/-- The path that the function makes of another one. -/
def canonical (path : List UInt8) : List UInt8 := pathText (isRooted path) (routeOf path).parts

structure Canonical (path out : List UInt8) : Prop where
  named : out ≠ dot → out ≠ [47] → ∀ part ∈ components out, part ≠ [] ∧ part ≠ dot
  leading : ∃ ups names, components out = List.replicate ups dotdot ++ names ∧ dotdot ∉ names ∧
    (isRooted out → ups = 0)
  starts : out.head? = some 47 ↔ path.head? = some 47 ∨ path.head? = some 92
  nothing : (routeOf path).parts = [] → out = if isRooted path then [47] else dot
  resolved : (routeOf path).parts ≠ [] → components out = (routeOf path).parts
  written : out = pathText (isRooted path) (routeOf path).parts
  leads : ∀ place, (isRooted path → place = []) →
    (components out).foldl Route.enter place = (components path).foldl Route.enter place

theorem canonical_canonical (path : List UInt8) : canonical (canonical path) = canonical path := by
  have h := sound_routeOf path
  have hroute : routeOf (canonical path) = routeOf path := resolve_pathText h
  rw [canonical, hroute, canonical, isRooted_pathText h]

theorem canonical_spec (path : List UInt8) : Canonical path (canonical path) := by
  have h := sound_routeOf path
  have hrooted : isRooted (canonical path) = isRooted path := isRooted_pathText h
  have hstarts := (head?_pathText h).trans isRooted_iff
  have hleads : ∀ place, (isRooted path → place = []) →
      (routeOf path).parts.foldl Route.enter place =
        (components path).foldl Route.enter place := fun _ hplace =>
    Route.leads_resolve (fun _ hpart _ hch => splitOnP_free hpart hch) hplace
  by_cases hsome : (routeOf path).parts = []
  · have hout : canonical path = if isRooted path then [47] else dot := by
      rw [canonical, hsome, pathText_nil]
    have hparts : components (canonical path) = if isRooted path then [[]] else [dot] := by
      rw [canonical, hsome, components_pathText_nil]
    exact {
      named := fun hdot hroot => by
        by_cases hr : isRooted path
        · exact absurd (hout.trans (if_pos hr)) hroot
        · exact absurd (hout.trans (if_neg hr)) hdot
      leading := by
        refine ⟨0, components (canonical path), rfl, ?_, fun _ => rfl⟩
        rw [hparts]
        split
        · decide
        · decide
      starts := hstarts
      nothing := fun _ => hout
      resolved := fun hne => absurd hsome hne
      written := rfl
      leads := fun place hplace => by
        rw [← hleads place hplace, hparts, hsome]
        split
        · rfl
        · rfl }
  · have hparts : components (canonical path) = (routeOf path).parts := components_pathText h hsome
    exact {
      named := fun _ _ part hpart => by
        rw [hparts] at hpart
        exact ⟨h.ne_nil hpart, h.ne_dot hpart⟩
      leading := ⟨(routeOf path).ups, (routeOf path).names, hparts,
        fun hmem => (h.ordinary dotdot hmem).ne_dotdot rfl, fun hr => h.root (hrooted ▸ hr)⟩
      starts := hstarts
      nothing := fun hnil => absurd hnil hsome
      resolved := fun _ => hparts
      written := rfl
      leads := fun place hplace => by rw [hparts, hleads place hplace] }

end Canonical

/-! ## What the function returns -/

section Returns

variable (junk : Junk) {str : StringT} {l : List UInt8} {rooted : Bool} {route : Route}
  {parts : List StringT}

theorem strcmpEqual_eq {first second m : List UInt8} (hfirst : l ++ [0] <+: first)
    (hsecond : m ++ [0] <+: second) (hl : 0 ∉ l) (hm : 0 ∉ m) :
    strcmpEqual first second = .ok (decide (l = m)) := by
  induction l generalizing first second m with
  | nil =>
    obtain ⟨rest, rfl⟩ := hfirst
    obtain ⟨rest', rfl⟩ := hsecond
    cases m with
    | nil => rfl
    | cons ch m =>
      have hch : (0 : UInt8) ≠ ch := fun heq => hm (heq ▸ List.mem_cons_self)
      exact if_pos hch
  | cons x l ih =>
    obtain ⟨rest, rfl⟩ := hfirst
    obtain ⟨rest', rfl⟩ := hsecond
    have hx : x ≠ 0 := fun heq => hl (heq ▸ List.mem_cons_self)
    cases m with
    | nil => exact if_pos hx
    | cons ch m =>
      change (if x ≠ ch then pure false
        else if x = 0 then pure true
        else strcmpEqual (l ++ [0] ++ rest) (m ++ [0] ++ rest')) = _
      by_cases hch : x = ch
      · subst hch
        rw [if_neg (not_not.mpr rfl), if_neg hx,
          ih ⟨rest, rfl⟩ ⟨rest', rfl⟩ (List.not_mem_of_not_mem_cons hl)
            (List.not_mem_of_not_mem_cons hm)]
        simp
      · have hne : x :: l ≠ ch :: m := fun heq => hch (List.cons.inj heq).1
        rw [if_pos hch, decide_eq_false hne]
        rfl

theorem stringEqCstr_eq (h : Represents str l) {cstr : List UInt8} (hcstr : 0 ∉ cstr) :
    stringEqCstr str cstr = .ok (decide (l = cstr)) :=
  strcmpEqual_eq h.starts (List.prefix_rfl) h.nulFree hcstr

theorem stringEmpty_eq (h : Represents str l) : stringEmpty str = decide (l = []) := by
  rw [stringEmpty, h.length_eq]
  exact decide_eq_decide.mpr (by simp)

theorem stringFront_eq (h : Represents str l) {ch : UInt8} (hhead : l.head? = some ch) :
    stringFront str = .ok ch := by
  have hget : l[0]? = some ch := by rw [← List.head?_eq_getElem?, hhead]
  have hlt := (List.getElem?_eq_some_iff.mp hget).1
  rw [stringFront, h.length_eq, if_neg (by omega)]
  exact byteAt_eq h hget

theorem Hold.unsnoc {strs : List StringT} {pieces : List (List UInt8)} {last : List UInt8}
    (h : Hold strs (pieces ++ [last])) :
    ∃ init str, strs = init ++ [str] ∧ Hold init pieces ∧ Represents str last := by
  induction pieces generalizing strs with
  | nil =>
    cases h with
    | cons hstr hrest =>
      cases hrest
      exact ⟨[], _, rfl, .nil, hstr⟩
  | cons piece pieces ih =>
    cases h with
    | cons hstr hrest =>
      obtain ⟨init, str, rfl, hinit, hlast⟩ := ih hrest
      exact ⟨_ :: init, str, rfl, .cons hstr hinit, hlast⟩

theorem Hold.concat {strs : List StringT} {pieces : List (List UInt8)} {last : List UInt8}
    (h : Hold strs pieces) (hstr : Represents str last) :
    Hold (strs ++ [str]) (pieces ++ [last]) :=
  List.rel_append h (.cons hstr .nil)

theorem nulFree_dotdot : 0 ∉ dotdot := by decide

/-- A `..` that nothing is left for is kept, but not at the root. -/
theorem cdParent_keeps (hparts : Hold parts route.parts) (h : route.Sound rooted)
    (hnames : route.names = []) :
    Returns (Hold · (route.step rooted dotdot).parts) (cdParent junk rooted parts) := by
  have hnone : cdEndsInName parts = .ok false := by
    rw [Route.parts, hnames, List.append_nil] at hparts
    cases hups : route.ups with
    | zero =>
      rw [hups] at hparts
      cases hparts
      rfl
    | succ ups =>
      rw [hups, List.replicate_succ'] at hparts
      obtain ⟨init, last, rfl, -, hlast⟩ := hparts.unsnoc
      rw [cdEndsInName, List.getLast?_concat]
      dsimp only
      rw [stringEqCstr_eq hlast nulFree_dotdot]
      rfl
  rw [cdParent]
  refine Returns.bind_eq hnone ?_
  rw [if_neg Bool.false_ne_true, Route.step, if_neg (by decide), if_neg (not_not.mpr rfl),
    if_neg (not_not.mpr hnames)]
  cases rooted with
  | true => exact Returns.pure hparts
  | false =>
    have hnul : NulFree (some dotdot) := fun d hd => Option.some.inj hd ▸ nulFree_dotdot
    refine (stringCreateFromCstr_returns junk hnul (by decide)).bind fun copy hcopy =>
      Returns.pure ?_
    have hall := hparts.concat hcopy
    rw [Route.parts, hnames, List.append_nil, Option.getD_some, ← List.replicate_succ'] at hall
    rw [if_neg Bool.false_ne_true, Route.parts, hnames, List.append_nil]
    exact hall

/-- It takes the last name with it if there is one. -/
theorem cdParent_returns (hparts : Hold parts route.parts) (h : route.Sound rooted) :
    Returns (Hold · (route.step rooted dotdot).parts) (cdParent junk rooted parts) := by
  rcases List.eq_nil_or_concat route.names with hnames | ⟨names, name, hnames⟩
  · exact cdParent_keeps junk hparts h hnames
  · rw [List.concat_eq_append] at hnames
    have hname : Ordinary name := h.ordinary name (by rw [hnames]; exact List.mem_concat_self)
    have hlast := hparts
    rw [Route.parts, hnames, ← List.append_assoc] at hlast
    obtain ⟨init, last, rfl, hinit, hrep⟩ := hlast.unsnoc
    have hne : route.names ≠ [] := by
      rw [hnames]
      exact List.concat_ne_nil _ _
    have hsome : cdEndsInName (init ++ [last]) = .ok true := by
      rw [cdEndsInName, List.getLast?_concat]
      dsimp only
      rw [stringEqCstr_eq hrep nulFree_dotdot, decide_eq_false hname.ne_dotdot]
      rfl
    rw [cdParent]
    refine Returns.bind_eq hsome ?_
    rw [if_pos rfl, Route.step, if_neg (by decide), if_neg (not_not.mpr rfl), if_pos hne,
      Route.parts, hnames, List.dropLast_concat, List.dropLast_concat]
    exact Returns.pure hinit

theorem cdComponent_returns (hparts : Hold parts route.parts) (h : route.Sound rooted)
    (hstr : Represents str l) (hroom : (l.length : ℤ) < intMax) :
    Returns (Hold · (route.step rooted l).parts) (cdComponent junk rooted parts str) := by
  rw [cdComponent, stringEmpty_eq hstr, stringEqCstr_eq hstr (by decide),
    stringEqCstr_eq hstr nulFree_dotdot]
  by_cases hnil : l = []
  · rw [if_pos (decide_eq_true hnil), Route.step, if_pos (.inl hnil)]
    exact Returns.pure hparts
  · rw [if_neg (decide_eq_true_iff.not.mpr hnil)]
    refine Returns.bind_eq rfl ?_
    by_cases hdot : l = dot
    · rw [if_pos (decide_eq_true hdot), Route.step, if_pos (.inr hdot)]
      exact Returns.pure hparts
    · rw [if_neg (decide_eq_true_iff.not.mpr hdot)]
      refine Returns.bind_eq rfl ?_
      by_cases hup : l = dotdot
      · rw [if_pos (decide_eq_true hup), hup]
        exact cdParent_returns junk hparts h
      · rw [if_neg (decide_eq_true_iff.not.mpr hup), Route.step,
          if_neg (fun hskip => hskip.elim hnil hdot), if_pos hup]
        refine (stringCreateFrom_returns junk hstr hroom).bind fun copy hcopy => Returns.pure ?_
        rw [Route.parts, ← List.append_assoc]
        exact hparts.concat hcopy

/-- The loop resolves the components. -/
theorem components_returns {raw : List StringT} {pieces : List (List UInt8)}
    (hraw : Hold raw pieces) (hroom : ∀ piece ∈ pieces, (piece.length : ℤ) < intMax)
    (hfree : ∀ piece ∈ pieces, ∀ ch ∈ piece, isSlash ch = false)
    (hparts : Hold parts route.parts) (h : route.Sound rooted) :
    Returns (Hold · (pieces.foldl (Route.step rooted) route).parts)
      (raw.foldlM (cdComponent junk rooted) parts) := by
  induction hraw generalizing parts route with
  | nil => exact Returns.pure hparts
  | cons hstr _ ih =>
    rw [List.foldlM_cons, List.foldl_cons]
    refine (cdComponent_returns junk hparts h hstr (hroom _ List.mem_cons_self)).bind
      fun next hnext => ?_
    exact ih (fun _ hmem => hroom _ (List.mem_cons_of_mem _ hmem))
      (fun _ hmem => hfree _ (List.mem_cons_of_mem _ hmem)) hnext
      (h.step (hfree _ List.mem_cons_self))

theorem cdJoinParts_returns (hparts : Hold parts route.parts) (h : route.Sound rooted)
    (hroom : ((List.intercalate [47] route.parts).length + rooted.toNat : ℤ) < intMax) :
    Returns (Represents · (pathText rooted route.parts)) (cdJoinParts junk rooted parts) := by
  have hslash : NulFree (some [47]) := fun d hd => Option.some.inj hd ▸ by decide
  have hdot : NulFree (some dot) := fun d hd => Option.some.inj hd ▸ by decide
  rw [cdJoinParts]
  refine (strlistJoin_returns junk hparts (by decide) (by omega)).bind fun out hout => ?_
  cases rooted with
  | true =>
    refine (stringInsertCstr_returns junk hout hslash hroom).bind fun out hout => ?_
    beta_reduce
    rw [stringEmpty_eq hout]
    exact Returns.pure hout
  | false =>
    rw [if_neg Bool.false_ne_true, pathText, if_neg Bool.false_ne_true]
    refine Returns.bind_eq rfl ?_
    beta_reduce
    rw [stringEmpty_eq hout, if_neg Bool.false_ne_true]
    by_cases hnil : route.parts = []
    · rw [hnil] at hout ⊢
      exact stringSetCstr_returns junk hout hdot (by decide)
    · rw [decide_eq_false (intercalate_ne_nil h hnil), if_neg hnil]
      exact Returns.pure hout

/-- What stands before the slash of the root is no component. -/
theorem resolve_splitOnP (l : List UInt8) :
    Route.resolve (isRooted l) (l.splitOnP isSlash) = routeOf l := by
  rw [routeOf, components]
  cases l with
  | nil => rfl
  | cons ch rest =>
    split_ifs with hrooted
    · have hch : isSlash ch = true := hrooted
      rw [List.splitOnP_cons_eq_if_modifyHead, if_pos hch]
      rfl
    · rfl

theorem length_le_of_mem_splitOnP {piece : List UInt8} (h : piece ∈ l.splitOnP isSlash) :
    piece.length ≤ l.length := by
  have hle := length_intercalate_le (List.singleton_sublist.mpr h)
  rwa [List.intercalate_singleton] at hle

theorem length_parts_le (hsome : l ≠ []) :
    (List.intercalate [47] (routeOf l).parts).length + (isRooted l).toNat ≤ l.length := by
  have hle := length_intercalate_le (Route.resolve_sublist (isRooted l) (components l))
  obtain ⟨ch, rest, rfl⟩ := List.exists_cons_of_ne_nil hsome
  by_cases hrooted : isRooted (ch :: rest)
  · rw [if_pos hrooted, List.tail_cons] at hle
    rw [hrooted]
    exact Nat.succ_le_succ hle
  · rw [if_neg hrooted] at hle
    rw [Bool.not_eq_true] at hrooted
    rw [hrooted]
    exact hle

theorem length_canonical_le (hsome : l ≠ []) : (canonical l).length ≤ l.length := by
  have hle := length_parts_le hsome
  rw [canonical, pathText]
  split_ifs with hrooted
  · rw [hrooted] at hle
    exact hle
  · exact List.length_pos_of_ne_nil hsome
  · exact le_trans (Nat.le_add_right _ _) hle

/-- The string is the canonical form of the path. -/
theorem cdCanonicalizeString_returns (h : Represents str l) (hsome : l ≠ [])
    (hroom : (l.length : ℤ) < intMax) {n : ℕ} (hn : l.length < n) :
    Returns (fun out => ∃ out', out = some out' ∧ Represents out' (canonical l))
      (cdCanonicalizeString junk n (some str)) := by
  obtain ⟨ch, rest, rfl⟩ := List.exists_cons_of_ne_nil hsome
  have hrooted : (decide (ch = 47) || decide (ch = 92)) = isRooted (ch :: rest) := by
    simp [isRooted, isSlash, slashes]
  rw [cdCanonicalizeString, stringEmpty_eq h, decide_eq_false hsome]
  refine Returns.bind_eq (stringFront_eq h rfl) ?_
  refine (strlistCreateFromStringSplitCstr_returns junk h hroom (by decide) hn).bind
    fun raw hraw => ?_
  obtain ⟨raw, rfl, hraw⟩ := hraw
  have hpieces : Hold raw ((ch :: rest).splitOnP isSlash) := hraw
  have hnone : Hold [] (⟨0, []⟩ : Route).parts := .nil
  rw [hrooted]
  have hloop := components_returns junk hpieces
    (fun piece hpiece => by have := length_le_of_mem_splitOnP hpiece; omega)
    (fun _ hpiece _ => splitOnP_free hpiece) hnone
    (Route.Sound.start (isRooted (ch :: rest)))
  rw [← Route.resolve, resolve_splitOnP] at hloop
  refine hloop.bind fun parts hparts => ?_
  have hle := length_parts_le hsome
  exact (cdJoinParts_returns junk hparts (sound_routeOf _) (by omega)).map fun out hout =>
    ⟨out, rfl, hout⟩

end Returns

/-- What is made of a path is its canonical form, and that is left as it is. -/
theorem cdCanonicalizeString_canonical (junk : Junk) {str : StringT} {path : List UInt8}
    (h : Represents str path) (hsome : path ≠ []) (hroom : (path.length : ℤ) < intMax) {n : ℕ}
    (hn : path.length < n) :
    ∃ out text, cdCanonicalizeString junk n (some str) = .ok (some out) ∧ Represents out text ∧
      Canonical path text ∧
      ∀ junk' n', text.length < n' → ∃ again,
        cdCanonicalizeString junk' n' (some out) = .ok (some again) ∧ Represents again text := by
  obtain ⟨_, hrun, out, rfl, hout⟩ := cdCanonicalizeString_returns junk h hsome hroom hn
  refine ⟨out, canonical path, hrun, hout, canonical_spec path, fun junk' n' hn' => ?_⟩
  have hlen := length_canonical_le hsome
  obtain ⟨_, hagain, again, rfl, hsame⟩ :=
    cdCanonicalizeString_returns junk' hout (pathText_ne_nil (sound_routeOf path)) (by omega) hn'
  rw [canonical_canonical] at hsame
  exact ⟨again, hagain, hsame⟩

/-- `/../a//.\b/..` is `/a`. -/
theorem cdCanonicalizeString_canonical_rooted : ∃ str out,
    stringCreateFromCstr (fun _ _ => 0)
      (some [47, 46, 46, 47, 97, 47, 47, 46, 92, 98, 47, 46, 46]) = .ok str ∧
    cdCanonicalizeString (fun _ _ => 0) 14 (some str) = .ok (some out) ∧
    Represents out [47, 97] := by
  have hnul : NulFree (some [47, 46, 46, 47, 97, 47, 47, 46, 92, 98, 47, 46, 46]) :=
    fun d hd => Option.some.inj hd ▸ by decide
  obtain ⟨str, hstr, hrep⟩ := stringCreateFromCstr_returns (fun _ _ => 0) hnul (by decide)
  obtain ⟨out, text, hrun, hout, hcanonical, -⟩ :=
    cdCanonicalizeString_canonical (fun _ _ => 0) hrep (List.cons_ne_nil _ _) (by decide)
      (show _ < 14 by decide)
  have htext : text = [47, 97] := hcanonical.written.trans (by decide +kernel)
  exact ⟨str, out, hstr, hrun, htext ▸ hout⟩

end Migash.Strings
