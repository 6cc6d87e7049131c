import Workflow.Store.Location

/-! # Location — the store that a process keeps

    A process asks for its store again and again while its surroundings change.  What it
    is given is told by the calls alone: the store of the latest successful use since the
    last reset, or else a new one, at the location that the first text names among the
    address, two variables and the settings.

    The heart is `StoreSession.Coherent.step`: while the cache holds what the calls so far
    account for, a call is answered by that account and leaves a cache that does so again,
    the same one if the call fails, however far it came. -/

namespace Workflow

namespace StoreLocation

variable {h : Host} {l : StoreLocation} {start text rest : String} {url : Option String}

theorem after?_eq_some_iff : after? start text = some rest ↔ text = start ++ rest := by
  unfold after?
  constructor
  · intro hafter
    split at hafter
    · rename_i hprefix
      obtain ⟨tail, htail⟩ := List.isPrefixOf_iff_prefix.mp hprefix
      rw [← htail, String.length, List.drop_left] at hafter
      rw [← Option.some.inj hafter, ← String.toList_inj, String.toList_append,
        String.toList_ofList, htail]
    · cases hafter
  · rintro rfl
    have hprefix : start.toList.isPrefixOf (start ++ rest).toList = true := by
      rw [String.toList_append]
      exact List.isPrefixOf_iff_prefix.mpr (List.prefix_append _ _)
    rw [if_pos hprefix, String.toList_append, String.length, List.drop_left,
      String.ofList_toList]

/-- Does the address name the store? -/
inductive Named : String → StoreLocation → Prop
  | unnamed : Named "" .memory
  | memory : Named "memory://" .memory
  | file (path : String) : Named ("sqlite://" ++ path) (.file path)
  | postgres (server : String) : Named ("postgres://" ++ server) (.remote ("postgres://" ++ server))
  | postgresql (server : String) :
      Named ("postgresql://" ++ server) (.remote ("postgresql://" ++ server))

/-- What starts with one text does not start with another that has another first letter. -/
theorem after?_eq_none {c d : Char} {more others : List Char} (hstart : start.toList = c :: more)
    (htext : text.toList = d :: others) (hne : c ≠ d) : after? start text = none := by
  refine Option.eq_none_iff_forall_ne_some.mpr fun rest hafter => hne ?_
  have hletters := congrArg String.toList (after?_eq_some_iff.mp hafter)
  rw [String.toList_append, hstart, htext] at hletters
  exact (List.cons.inj hletters).1.symm

/-- An address that starts like neither of the two words for memory names something else. -/
theorem ofUrl_of_letters {d : Char} {others : List Char} (htext : text.toList = d :: others)
    (hne : d ≠ 'm') : ofUrl (some text) = match after? "sqlite://" text with
      | some path => .ok (.file path)
      | none      =>
        if (after? "postgres://" text).isSome ∨ (after? "postgresql://" text).isSome then
          .ok (.remote text)
        else .error (.refused s!"Unsupported database backend: {text}") := by
  have hother : ¬(text = "" ∨ text = "memory://") := by
    rintro (rfl | rfl)
    · cases htext
    · exact hne (List.cons.inj htext).1.symm
  unfold ofUrl
  exact if_neg hother

theorem ofUrl_of_named (hnamed : Named text l) : ofUrl (some text) = .ok l := by
  cases hnamed with
  | unnamed | memory => rfl
  | file path =>
      have htext := String.toList_append (s := "sqlite://") (t := path)
      rw [ofUrl_of_letters htext (by decide), after?_eq_some_iff.mpr rfl]
  | postgres server =>
      have htext := String.toList_append (s := "postgres://") (t := server)
      rw [ofUrl_of_letters htext (by decide), after?_eq_none rfl htext (by decide)]
      exact if_pos (.inl (Option.isSome_iff_exists.mpr ⟨server, after?_eq_some_iff.mpr rfl⟩))
  | postgresql server =>
      have htext := String.toList_append (s := "postgresql://") (t := server)
      rw [ofUrl_of_letters htext (by decide), after?_eq_none rfl htext (by decide)]
      exact if_pos (.inr (Option.isSome_iff_exists.mpr ⟨server, after?_eq_some_iff.mpr rfl⟩))

theorem ofUrl_ok_iff : ofUrl url = .ok l ↔ Named (url.getD "") l := by
  constructor
  · intro hurl
    match url with
    | none     => cases hurl; exact .unnamed
    | some url =>
        unfold ofUrl at hurl
        dsimp only at hurl
        split at hurl
        · rename_i hmemory
          cases hurl
          rcases hmemory with rfl | rfl
          · exact .unnamed
          · exact .memory
        · split at hurl
          · rename_i path hpath
            cases hurl
            cases after?_eq_some_iff.mp hpath
            exact .file path
          · split at hurl
            · rename_i hserver
              cases hurl
              rcases hserver with hserver | hserver
              · obtain ⟨server, hserver⟩ := Option.isSome_iff_exists.mp hserver
                cases after?_eq_some_iff.mp hserver
                exact .postgres server
              · obtain ⟨server, hserver⟩ := Option.isSome_iff_exists.mp hserver
                cases after?_eq_some_iff.mp hserver
                exact .postgresql server
            · cases hurl
  · intro hnamed
    match url with
    | none     => rw [← ofUrl_of_named hnamed]; rfl
    | some url => exact ofUrl_of_named hnamed

theorem opened_ok {l₁ : StoreLocation} (hopened : l.opened h = .ok l₁) : l₁ = l := by
  unfold opened at hopened
  split at hopened
  · split at hopened
    · cases hopened
    · split at hopened
      · exact (Except.ok.inj hopened).symm
      · cases hopened
  · exact (Except.ok.inj hopened).symm

/-- Does the address name the store, and can the store be opened? -/
structure Reached (h : Host) (address : String) (l : StoreLocation) : Prop where
  named : Named address l
  opens : l.opened h = .ok l

/-- The first text that is not empty. -/
def firstText (texts : List (Option String)) : String :=
  ((texts.filterMap id).find? (· ≠ "")).getD ""

theorem reach_ok_iff : reach h url = .ok l ↔ Reached h (url.getD "") l := by
  constructor
  · intro hreach
    cases hurl : ofUrl url with
    | error f =>
        rw [reach, hurl] at hreach
        cases hreach
    | ok l₁ =>
        rw [reach, hurl] at hreach
        cases opened_ok hreach
        exact ⟨ofUrl_ok_iff.mp hurl, hreach⟩
  · intro ⟨hnamed, hopens⟩
    rw [reach, ofUrl_ok_iff.mpr hnamed]
    exact hopens

/-- Is the store reached under the address given, or else under the one that a variable
    or the settings name?  The settings are those given, or else those of the process. -/
def AskedFor (h : Host) (url : Option String) (settings : Option Settings)
    (l : StoreLocation) : Prop :=
  ∃ s, (settings = some s ∨ settings = none ∧ Settings.load h none = .ok s) ∧
    Reached h (firstText [url, h.set? "STEPFLOW_DATABASE_URL", h.set? "DATABASE_URL",
      s.databaseUrl]) l

/-- The store that a use opens. -/
def asked (h : Host) (url : Option String) (settings : Option Settings) :
    Except Failure StoreLocation := do
  let s ← Settings.inForce h settings
  reach h (((url.filter (· ≠ "")).or h.databaseUrl?).or s.databaseUrl)

theorem getD_or_eq_firstText (a b c d : Option String) :
    (((a.filter (· ≠ "")).or ((b.filter (· ≠ "")).or (c.filter (· ≠ "")))).or d).getD "" =
      firstText [a, b, c, d] := by
  have hnext (a : Option String) (rest : List (Option String)) :
      firstText (a :: rest) = (a.filter (· ≠ "")).getD (firstText rest) := by
    cases a with
    | none   => rfl
    | some a =>
        by_cases ha : a = ""
        · subst ha; rfl
        · simp [firstText, Option.filter, ha]
  have hlast : firstText [d] = d.getD "" := by
    rw [hnext]
    cases d with
    | none   => rfl
    | some d =>
        by_cases hd : d = ""
        · subst hd; rfl
        · simp [Option.filter, hd]
  rw [hnext, hnext, hnext, hlast]
  cases a.filter (· ≠ "") <;> cases b.filter (· ≠ "") <;> cases c.filter (· ≠ "") <;> rfl

theorem asked_ok_iff {settings : Option Settings} :
    asked h url settings = .ok l ↔ AskedFor h url settings l := by
  have hgiven (s : Settings) : Settings.inForce h settings = .ok s ↔
      settings = some s ∨ settings = none ∧ Settings.load h none = .ok s := by
    cases settings with
    | none   => simp [Settings.inForce]
    | some s => simp [Settings.inForce]
  have haddress (s : Settings) := getD_or_eq_firstText url (h.set? "STEPFLOW_DATABASE_URL")
    (h.set? "DATABASE_URL") s.databaseUrl
  constructor
  · intro hasked
    cases hforce : Settings.inForce h settings with
    | error f =>
        rw [asked, hforce] at hasked
        cases hasked
    | ok s =>
        rw [asked, hforce] at hasked
        exact ⟨s, (hgiven s).mp hforce, haddress s ▸ reach_ok_iff.mp hasked⟩
  · intro ⟨s, hs, hreached⟩
    rw [asked, (hgiven s).mpr hs]
    exact reach_ok_iff.mpr ((haddress s).symm ▸ hreached)

end StoreLocation

namespace StoreTask

variable {α β : Type} {h : Host} {url : Option String} {settings : Option Settings}
  {c : StoreCache}

theorem run_bind (x : StoreTask α) (f : α → StoreTask β) : (x >>= f).run c =
    match x.run c with
    | (.ok a, c)    => (f a).run c
    | (.error e, c) => (.error e, c) := by
  change (Prod.rec (fun r c => (ExceptT.bindCont f r).run c) (x.run c) :
    Except Failure β × StoreCache) = _
  obtain ⟨r, c'⟩ := x.run c
  cases r with
  | ok a    => rfl
  | error e => rfl

theorem openUrl_run : (openUrl h url).run c = match StoreLocation.reach h url with
    | .ok l    => (.ok ⟨c.opened, l⟩, { c with opened := c.opened + 1 })
    | .error f => (.error f, c) := by
  unfold openUrl
  cases StoreLocation.reach h url with
  | error f => rfl
  | ok l    => rfl

theorem switch_run : (switch h url settings).run c = match StoreLocation.asked h url settings with
    | .ok l    => (.ok ⟨c.opened, l⟩, ⟨c.opened + 1, some ⟨c.opened, l⟩⟩)
    | .error f => (.error f, c) := by
  unfold switch StoreLocation.asked
  cases Settings.inForce h settings with
  | error f => rfl
  | ok s    =>
      change ((openUrl h (((url.filter (· ≠ "")).or h.databaseUrl?).or s.databaseUrl)) >>=
        fun s => do modify fun c => { c with kept := some s }; pure s).run c =
          match StoreLocation.reach h (((url.filter (· ≠ "")).or h.databaseUrl?).or s.databaseUrl) with
          | .ok l    => _
          | .error f => _
      rw [run_bind, openUrl_run]
      cases StoreLocation.reach h (((url.filter (· ≠ "")).or h.databaseUrl?).or s.databaseUrl) with
      | error f => rfl
      | ok l    => rfl

theorem use_run_kept {x : OpenedStore} (hkept : c.kept = some x) :
    (use h none none).run c = (.ok x, c) := by
  obtain ⟨opened, kept⟩ := c
  cases hkept
  rfl

/-- A use opens a store when none is kept, or when it asks for one. -/
theorem use_run_asking (hasking : c.kept = none ∨ url ≠ none ∨ settings ≠ none) :
    (use h url settings).run c = (switch h url settings).run c := by
  obtain ⟨opened, kept⟩ := c
  match kept, url, settings with
  | none,   _,      _      => rfl
  | some _, some _, _      => rfl
  | some _, none,   some _ => rfl
  | some _, none,   none   => simp at hasking

end StoreTask

/-! ## Calls one after another -/

/-- A call on the stores of a process. -/
inductive StoreRequest where
  | use (url : Option String) (settings : Option Settings)
  | openUrl (url : Option String)
  | reset

/-- Carries the call out in the surroundings that the process has. -/
def StoreRequest.call (h : Host) : StoreRequest → StoreTask (Option OpenedStore)
  | .use url settings => do return some (← StoreTask.use h url settings)
  | .openUrl url      => do return some (← StoreTask.openUrl h url)
  | .reset            => do StoreTask.reset; return none

/-- A call that was made, with its answer. -/
structure StoreTurn where
  request : StoreRequest
  answer  : Except Failure (Option OpenedStore)

/-- Was it the reset? -/
def StoreTurn.isReset (t : StoreTurn) : Bool :=
  match t.request with
  | .reset => true
  | _      => false

/-- The store that a successful use was answered with. -/
def StoreTurn.used? (t : StoreTurn) : Option OpenedStore :=
  match t.request, t.answer with
  | .use _ _, .ok s => s
  | _,        _     => none

/-- The store of the latest successful use since the last reset. -/
def latestUsed (turns : List StoreTurn) : Option OpenedStore :=
  (turns.reverse.takeWhile (!·.isReset)).findSome? StoreTurn.used?

/-- The calls that were made, and the cache after them. -/
structure StoreSession where
  turns : List StoreTurn := []
  cache : StoreCache := {}

namespace StoreSession

variable {s : StoreSession} {h : Host} {r : StoreRequest}
  {a : Except Failure (Option OpenedStore)} {c : StoreCache}

/-- Makes one more call. -/
def next (s : StoreSession) (h : Host) (r : StoreRequest) : StoreSession where
  turns := s.turns ++ [⟨r, ((r.call h).run s.cache).1⟩]
  cache := ((r.call h).run s.cache).2

/-- The session of a process that made some calls, each in the surroundings of its time. -/
def after (calls : List (Host × StoreRequest)) : StoreSession :=
  calls.foldl (fun s q => s.next q.1 q.2) {}

/-- Is the store another than all that were answered? -/
def Unseen (turns : List StoreTurn) (x : OpenedStore) : Prop :=
  ∀ t ∈ turns, ∀ y, t.answer = .ok (some y) → y.number ≠ x.number

/-- Is a use of the store to open one? -/
def Asks (turns : List StoreTurn) (url : Option String) (settings : Option Settings) : Prop :=
  latestUsed turns = none ∨ url ≠ none ∨ settings ≠ none

/-- What a call is answered after some calls. -/
inductive Answers (turns : List StoreTurn) (h : Host) :
    StoreRequest → Except Failure (Option OpenedStore) → Prop
  | kept {x} (hlatest : latestUsed turns = some x) : Answers turns h (.use none none) (.ok (some x))
  | made {url settings x} (hasks : Asks turns url settings)
      (hlocation : x.location.AskedFor h url settings) (hunseen : Unseen turns x) :
      Answers turns h (.use url settings) (.ok (some x))
  | failed {url settings f} (hasks : Asks turns url settings)
      (hnone : ∀ l, ¬StoreLocation.AskedFor h url settings l) :
      Answers turns h (.use url settings) (.error f)
  | opened {url x} (hlocation : x.location.Reached h (url.getD "")) (hunseen : Unseen turns x) :
      Answers turns h (.openUrl url) (.ok (some x))
  | refused {url f} (hnone : ∀ l, ¬StoreLocation.Reached h (url.getD "") l) :
      Answers turns h (.openUrl url) (.error f)
  | reset : Answers turns h .reset (.ok none)

/-- What a call comes to: its answer, and what the process keeps after it. -/
structure Handles (s : StoreSession) (h : Host) (r : StoreRequest)
    (a : Except Failure (Option OpenedStore)) : Prop where
  answers : Answers s.turns h r a
  noted : (s.next h r).turns = s.turns ++ [⟨r, a⟩]
  held : s.cache.kept = latestUsed s.turns
  used : ∀ url settings x, r = .use url settings → a = .ok x → (s.next h r).cache.kept = x
  failing : ∀ f, a = .error f → (s.next h r).cache.kept = s.cache.kept
  opening : ∀ url, r = .openUrl url → (s.next h r).cache.kept = s.cache.kept
  resetting : r = .reset → (s.next h r).cache.kept = none

/-- Does the cache hold what the calls account for, and count the stores that they were
    answered with? -/
structure Coherent (s : StoreSession) : Prop where
  held : s.cache.kept = latestUsed s.turns
  counted : ∀ t ∈ s.turns, ∀ x, t.answer = .ok (some x) → x.number < s.cache.opened

theorem latestUsed_concat (turns : List StoreTurn) (t : StoreTurn) :
    latestUsed (turns ++ [t]) = if t.isReset then none else t.used?.or (latestUsed turns) := by
  unfold latestUsed
  rw [List.reverse_concat, List.takeWhile_cons]
  cases ht : t.isReset with
  | true  => rfl
  | false =>
      cases hused : t.used? <;> simp [hused]

theorem exists_of_latestUsed {turns : List StoreTurn} {x : OpenedStore}
    (hlatest : latestUsed turns = some x) : ∃ t ∈ turns, t.answer = .ok (some x) := by
  obtain ⟨t, ht, hused⟩ := List.exists_of_findSome?_eq_some hlatest
  refine ⟨t, List.mem_reverse.mp ((List.takeWhile_sublist _).subset ht), ?_⟩
  unfold StoreTurn.used? at hused
  split at hused
  · rename_i hanswer
    rw [hanswer, hused]
  · cases hused

/-- The number of the store that is opened next is new. -/
theorem Coherent.unseen (hs : s.Coherent) (l : StoreLocation) :
    Unseen s.turns ⟨s.cache.opened, l⟩ :=
  fun t ht y hy => Nat.ne_of_lt (hs.counted t ht y hy)

/-- A call is handled as it should be when it is answered so, keeps what its answer says,
    and counts the store that it opens. -/
theorem Coherent.handled (hs : s.Coherent) (hrun : (r.call h).run s.cache = (a, c))
    (hanswers : Answers s.turns h r a) (hgrows : s.cache.opened ≤ c.opened)
    (hcounts : ∀ x, a = .ok (some x) → x.number < c.opened)
    (hkept : c.kept = if StoreTurn.isReset ⟨r, a⟩ then none
      else (StoreTurn.used? ⟨r, a⟩).or s.cache.kept) :
    Handles s h r a ∧ (s.next h r).Coherent := by
  have hcache : (s.next h r).cache = c := congrArg Prod.snd hrun
  have hturns : (s.next h r).turns = s.turns ++ [⟨r, a⟩] :=
    congrArg (fun p => s.turns ++ [⟨r, p.1⟩]) hrun
  refine ⟨⟨hanswers, hturns, hs.held, ?_, ?_, ?_, ?_⟩, ?_, ?_⟩
  · rintro url settings x rfl rfl
    rw [hcache, hkept]
    cases hanswers <;> rfl
  · rintro f rfl
    rw [hcache, hkept]
    cases hanswers <;> rfl
  · rintro url rfl
    rw [hcache, hkept]
    rfl
  · rintro rfl
    rw [hcache, hkept]
    rfl
  · rw [hcache, hturns, hkept, latestUsed_concat, hs.held]
  · rw [hcache, hturns]
    intro t ht x hx
    rcases List.mem_append.mp ht with hold | hnew
    · exact Nat.lt_of_lt_of_le (hs.counted t hold x hx) hgrows
    · cases List.mem_singleton.mp hnew
      exact hcounts x hx

theorem Coherent.next_openUrl (hs : s.Coherent) (url : Option String) :
    ∃ a, Handles s h (.openUrl url) a ∧ (s.next h (.openUrl url)).Coherent := by
  have hrun : ((StoreRequest.openUrl url).call h).run s.cache = _ :=
    StoreTask.run_bind (StoreTask.openUrl h url) _
  rw [StoreTask.openUrl_run] at hrun
  cases hreach : StoreLocation.reach h url with
  | error f =>
      rw [hreach] at hrun
      refine ⟨.error f, hs.handled hrun (.refused fun l hl => ?_) (Nat.le_refl _) nofun rfl⟩
      cases hreach.symm.trans (StoreLocation.reach_ok_iff.mpr hl)
  | ok l =>
      rw [hreach] at hrun
      refine ⟨.ok (some ⟨s.cache.opened, l⟩), hs.handled hrun
        (.opened (StoreLocation.reach_ok_iff.mp hreach) (hs.unseen l)) (Nat.le_succ _) ?_ rfl⟩
      rintro x ⟨⟩
      exact Nat.lt_succ_self _

theorem Coherent.next_use (hs : s.Coherent) (url : Option String) (settings : Option Settings) :
    ∃ a, Handles s h (.use url settings) a ∧ (s.next h (.use url settings)).Coherent := by
  have hrun : ((StoreRequest.use url settings).call h).run s.cache = _ :=
    StoreTask.run_bind (StoreTask.use h url settings) _
  by_cases hasks : Asks s.turns url settings
  · rw [StoreTask.use_run_asking (hs.held ▸ hasks), StoreTask.switch_run] at hrun
    cases hasked : StoreLocation.asked h url settings with
    | error f =>
        rw [hasked] at hrun
        refine ⟨.error f, hs.handled hrun (.failed hasks fun l hl => ?_) (Nat.le_refl _) nofun rfl⟩
        cases hasked.symm.trans (StoreLocation.asked_ok_iff.mpr hl)
    | ok l =>
        rw [hasked] at hrun
        refine ⟨.ok (some ⟨s.cache.opened, l⟩), hs.handled hrun
          (.made hasks (StoreLocation.asked_ok_iff.mp hasked) (hs.unseen l)) (Nat.le_succ _) ?_ rfl⟩
        rintro x ⟨⟩
        exact Nat.lt_succ_self _
  · obtain ⟨hlatest, hplain⟩ := not_or.mp hasks
    obtain ⟨hurl, hsettings⟩ := not_or.mp hplain
    obtain ⟨x, hx⟩ := Option.ne_none_iff_exists'.mp hlatest
    cases Decidable.of_not_not hurl
    cases Classical.not_not.mp hsettings
    have hkept : s.cache.kept = some x := hs.held.trans hx
    rw [StoreTask.use_run_kept hkept] at hrun
    refine ⟨.ok (some x), hs.handled hrun (.kept hx) (Nat.le_refl _) ?_ hkept⟩
    rintro y ⟨⟩
    obtain ⟨t, ht, hanswer⟩ := exists_of_latestUsed hx
    exact hs.counted t ht x hanswer

theorem Coherent.next_reset (hs : s.Coherent) :
    ∃ a, Handles s h .reset a ∧ (s.next h .reset).Coherent :=
  ⟨.ok none, hs.handled (c := { s.cache with kept := none }) rfl .reset (Nat.le_refl _) nofun rfl⟩

/-- One call: it is handled, and the cache is coherent again. -/
theorem Coherent.step (hs : s.Coherent) (h : Host) (r : StoreRequest) :
    ∃ a, Handles s h r a ∧ (s.next h r).Coherent := by
  cases r with
  | use url settings => exact hs.next_use url settings
  | openUrl url      => exact hs.next_openUrl url
  | reset            => exact hs.next_reset

/-- Any calls, by induction on them. -/
theorem Coherent.run (hs : s.Coherent) (calls : List (Host × StoreRequest)) :
    (calls.foldl (fun s q => s.next q.1 q.2) s).Coherent := by
  induction calls generalizing s with
  | nil => exact hs
  | cons q calls ih =>
      obtain ⟨_, -, hnext⟩ := hs.step q.1 q.2
      exact ih hnext

/-- Whatever was called before, and in whatever surroundings, a call is handled as it
    should be. -/
theorem call_handled (calls : List (Host × StoreRequest)) (h : Host) (r : StoreRequest) :
    ∃ a, Handles (after calls) h r a := by
  have hstart : ({} : StoreSession).Coherent := ⟨rfl, fun _ ht => nomatch List.not_mem_nil ht⟩
  obtain ⟨a, hhandles, -⟩ := (hstart.run calls).step h r
  exact ⟨a, hhandles⟩

/-- A process whose variables name a file uses it, and still does after an address that
    names nothing and after a direct opening. -/
example :
    let h : Host := { environment := [("DATABASE_URL", "sqlite:///tmp/w.db")] }
    let calls := [(h, .use none none), (h, .use (some "mysql://db") none), (h, .openUrl none)]
    (after calls).cache.kept = some ⟨0, .file "/tmp/w.db"⟩ := by
  decide

end StoreSession

end Workflow
