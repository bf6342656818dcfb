import AgenticExecution.Middleware
import Mathlib.Data.List.Induction

set_option autoImplicit false

/-! # What the rate limiter admits

The dictionary forgets: windows roll over key by key, and the cleanup drops the entries of all others.
Where time does not go back it still decides like a limiter that remembers every request, and what
follows for the requests of one client is read off that one. -/

namespace AgenticExecution

namespace RateLimit

variable {limit : Int} {counts : Counts} {before arrivals : List Arrival} {a : Arrival} {now w : Int}
  {key : String}

/-! ## A limiter that remembers every request -/

/-- The counted requests, each as its bucket and the 60-second window it arrived in. -/
def history (arrivals : List Arrival) : List (String × Int) :=
  (arrivals.filter fun a => a.scope.isApi).map fun a => (a.scope.bucketKey, ⌊a.now / 60⌋)

/-- The earlier requests of the same bucket in the same 60-second window. -/
def ahead (before : List Arrival) (a : Arrival) : Nat :=
  before.countP fun b => b.scope.isApi &&
    (b.scope.bucketKey = a.scope.bucketKey && ⌊b.now / 60⌋ = ⌊a.now / 60⌋)

/-- What becomes of a request after the requests `before`. -/
def answer (limit : Int) (before : List Arrival) (a : Arrival) : Handled :=
  if a.scope.isApi ∧ 0 < limit ∧ limit ≤ ahead before a then .answered a.tooMany else .passedOn

/-- The limiter as a function of all arrivals before. -/
def remembering (limit : Int) : List Arrival → List Arrival → List (Arrival × Handled)
  | _, [] => []
  | before, a :: rest => (a, answer limit before a) :: remembering limit (before ++ [a]) rest

theorem history_append (before arrivals : List Arrival) :
    history (before ++ arrivals) = history before ++ history arrivals := by
  rw [history, List.filter_append, List.map_append, history, history]

theorem history_of_api (h : a.scope.isApi = true) :
    history (before ++ [a]) = history before ++ [(a.scope.bucketKey, ⌊a.now / 60⌋)] := by
  rw [history_append]
  simp [history, h]

theorem history_of_not_api (h : a.scope.isApi = false) : history (before ++ [a]) = history before := by
  rw [history_append]
  simp [history, h]

theorem ahead_eq_count (before : List Arrival) (a : Arrival) :
    ahead before a = (history before).count (a.scope.bucketKey, ⌊a.now / 60⌋) := by
  rw [ahead, history, List.count_eq_countP, List.countP_map, List.countP_filter]
  refine List.countP_congr fun b _ => ?_
  simp [Prod.ext_iff, and_comm]

/-! ## One request -/

theorem call_of_not_api (h : a.scope.isApi = false) : call limit counts a = (.passedOn, counts) := by
  unfold call
  split_ifs with htype hpath
  · rfl
  · rfl
  · have hprefix := not_not.1 (not_or.1 hpath).2
    rw [Scope.isApi, hprefix, Bool.and_true, decide_eq_false_iff_not] at h
    exact absurd h htype

theorem call_of_unlimited (h : limit ≤ 0) : call limit counts a = (.passedOn, counts) := by
  unfold call
  split_ifs with htype hpath
  · rfl
  · rfl
  · exact absurd (.inl h) hpath

/-- The window of the entry rolls over when it is not the current one. -/
theorem get_rollover (counts : Counts) (key : String) (w : Int) :
    (if (get counts key w).1 ≠ w then (w, 0) else get counts key w) = (w, counts.countIn key w) := by
  unfold get Counters.countIn
  cases counts.find? key with
  | none => simp
  | some entry =>
      by_cases hw : entry.window = w
      · simp [hw]
      · simp [hw]

theorem call_of_api (hapi : a.scope.isApi = true) (hlimit : 0 < limit) :
    call limit counts a =
      (if limit < (counts.countIn a.scope.bucketKey a.window + 1 : Nat) then .answered a.tooMany
        else .passedOn,
        if 10000 < (counts.hit a.scope.bucketKey a.window).rows.length then
          (counts.hit a.scope.bucketKey a.window).prune a.window
        else counts.hit a.scope.bucketKey a.window) := by
  rw [Scope.isApi, Bool.and_eq_true, decide_eq_true_eq] at hapi
  unfold call
  rw [if_neg (not_not.2 hapi.1), if_neg (not_or.2 ⟨not_le.2 hlimit, not_not.2 hapi.2⟩)]
  have hroll := get_rollover counts a.scope.bucketKey a.window
  simp only [hroll]
  rfl

/-- A request is decided as by the limiter that remembers, and the counters go on agreeing with the
    history. -/
theorem call_spec (h : Counters.Agree counts (history before) now) (hle : now ≤ a.window)
    (hlimit : 0 < limit) :
    (call limit counts a).1 = answer limit before a ∧
      Counters.Agree (call limit counts a).2 (history (before ++ [a])) a.window := by
  have hnow := h.advance hle
  cases hapi : a.scope.isApi with
  | false =>
      rw [call_of_not_api hapi, history_of_not_api hapi, answer, if_neg (by simp [hapi])]
      exact ⟨rfl, hnow⟩
  | true =>
      have hcount : counts.countIn a.scope.bucketKey a.window = ahead before a := by
        rw [hnow.count_eq _ _ (le_refl _), ahead_eq_count]
        rfl
      have hhit := hnow.hit (k := a.scope.bucketKey)
      rw [call_of_api hapi hlimit, history_of_api hapi, hcount, answer]
      refine ⟨?_, ?_⟩
      · refine if_congr ?_ rfl rfl
        rw [Nat.cast_add, Nat.cast_one, Int.lt_add_one_iff]
        exact ⟨fun h => ⟨hapi, hlimit, h⟩, fun h => h.2.2⟩
      · dsimp only
        split_ifs
        · exact hhit.prune
        · exact hhit

/-! ## A run -/

theorem window_mono {a b : Arrival} (h : a.now ≤ b.now) : a.window ≤ b.window :=
  Int.floor_mono (div_le_div_of_nonneg_right h (by norm_num))

/-- `run` with another dictionary left behind each request. -/
def runWith (limit : Int) (next : Counts → Arrival → Counts) (counts : Counts) :
    List Arrival → List (Arrival × Handled)
  | [] => []
  | a :: rest => (a, (call limit counts a).1) :: runWith limit next (next counts a) rest

theorem run_eq_runWith (limit : Int) (counts : Counts) (arrivals : List Arrival) :
    run limit counts arrivals =
      runWith limit (fun counts a => (call limit counts a).2) counts arrivals := by
  induction arrivals generalizing counts with
  | nil => rfl
  | cons a rest ih => rw [run, runWith, ih]

/-- What is left behind agrees with the history. -/
def Faithful (next : Counts → Arrival → Counts) : Prop :=
  ∀ counts before now a, Counters.Agree counts (history before) now → now ≤ a.window →
    Counters.Agree (next counts a) (history (before ++ [a])) a.window

theorem runWith_eq_of_unlimited {next : Counts → Arrival → Counts} (hlimit : limit ≤ 0)
    (arrivals : List Arrival) (counts : Counts) (before : List Arrival) :
    runWith limit next counts arrivals = remembering limit before arrivals := by
  induction arrivals generalizing counts before with
  | nil => rfl
  | cons a rest ih =>
      rw [runWith, remembering, call_of_unlimited hlimit, answer,
        if_neg fun h => not_lt.2 hlimit h.2.1]
      exact congrArg _ (ih _ _)

theorem runWith_eq {next : Counts → Arrival → Counts} (hlimit : 0 < limit) (hnext : Faithful next)
    (h : Counters.Agree counts (history before) now)
    (hordered : arrivals.Pairwise fun a b => a.now ≤ b.now) (hnow : ∀ a ∈ arrivals, now ≤ a.window) :
    runWith limit next counts arrivals = remembering limit before arrivals := by
  induction arrivals generalizing counts before now with
  | nil => rfl
  | cons a rest ih =>
      rw [List.pairwise_cons] at hordered
      have hle := hnow a List.mem_cons_self
      rw [runWith, remembering, (call_spec h hle hlimit).1]
      refine congrArg _ (ih (hnext counts before now a h hle) hordered.2 fun b hb => ?_)
      exact window_mono (hordered.1 b hb)

/-- Whatever faithful dictionary is left behind, the requests are decided as by the limiter that
    remembers every request. -/
theorem runWith_traffic {next : Counts → Arrival → Counts} (hnext : 0 < limit → Faithful next)
    (traffic : Traffic) :
    runWith limit next Table.empty traffic.arrivals = remembering limit [] traffic.arrivals := by
  obtain ⟨arrivals, hordered⟩ := traffic
  by_cases hlimit : 0 < limit
  · cases arrivals with
    | nil => rfl
    | cons a rest =>
        refine runWith_eq hlimit (hnext hlimit) (.empty a.window) hordered fun b hb => ?_
        rcases List.mem_cons.1 hb with rfl | hb
        · exact le_refl _
        · exact window_mono ((List.pairwise_cons.1 hordered).1 b hb)
  · exact runWith_eq_of_unlimited (not_lt.1 hlimit) _ _ _

/-- The middleware decides like the limiter that remembers every request. -/
theorem serve_eq (limit : Int) (traffic : Traffic) :
    serve limit traffic.arrivals = remembering limit [] traffic.arrivals := by
  rw [serve, run_eq_runWith]
  exact runWith_traffic (fun hlimit counts before now a h hle => (call_spec h hle hlimit).2) traffic

theorem getElem?_remembering (before arrivals : List Arrival) (i : Nat) :
    (remembering limit before arrivals)[i]? =
      arrivals[i]?.map fun a => (a, answer limit (before ++ arrivals.take i) a) := by
  induction arrivals generalizing before i with
  | nil => rfl
  | cons a rest ih =>
      rw [remembering]
      cases i with
      | zero => simp
      | succ i => simp [ih]

theorem remembering_snoc (before arrivals : List Arrival) (a : Arrival) :
    remembering limit before (arrivals ++ [a]) =
      remembering limit before arrivals ++ [(a, answer limit (before ++ arrivals) a)] := by
  induction arrivals generalizing before with
  | nil => simp [remembering]
  | cons b rest ih => simp [remembering, ih]

/-! ## The counts are exact -/

/-- The dictionary without its cleanup. -/
def uncleaned (limit : Int) (counts : Counts) (a : Arrival) : Counts :=
  if a.scope.isApi ∧ 0 < limit then counts.hit a.scope.bucketKey a.window else counts

theorem faithful_uncleaned (hlimit : 0 < limit) : Faithful (uncleaned limit) := by
  intro counts before now a h hle
  unfold uncleaned
  cases hapi : a.scope.isApi with
  | false =>
      rw [if_neg (by simp), history_of_not_api hapi]
      exact h.advance hle
  | true =>
      rw [if_pos ⟨rfl, hlimit⟩, history_of_api hapi]
      exact (h.advance hle).hit

/-- A request is admitted exactly if fewer than `limit` earlier requests of its bucket arrived in its
    window, admitted or not; and the cleanup changes no decision. -/
theorem serve_exact (hlimit : 0 < limit) (traffic : Traffic) :
    (∀ (i : Nat) a, traffic.arrivals[i]? = some a → a.scope.isApi = true →
      ∃ handled, (serve limit traffic.arrivals)[i]? = some (a, handled) ∧
        (handled = .passedOn ↔ (ahead (traffic.arrivals.take i) a : Int) < limit)) ∧
      serve limit traffic.arrivals = runWith limit (uncleaned limit) Table.empty traffic.arrivals := by
  rw [serve_eq]
  refine ⟨fun i a ha hapi => ⟨answer limit (traffic.arrivals.take i) a, ?_, ?_⟩, ?_⟩
  · rw [getElem?_remembering, ha]
    rfl
  · unfold answer
    split_ifs with h
    · exact iff_of_false nofun (not_lt.2 h.2.2)
    · exact iff_of_true rfl (not_le.1 fun hle => h ⟨hapi, hlimit, hle⟩)
  · exact (runWith_traffic faithful_uncleaned traffic).symm

/-- An `/api` request of an address, with or without an API key. -/
def request (address : String) (apiKey : Option String) (now : Time) : Arrival where
  scope :=
    { path := "/api/executions"
      headers := apiKey.toList.map fun key => (ascii "x-api-key", ascii key)
      client := some (address, 50000) }
  now := now

/-- Two requests in one minute and one in the next. -/
def threeRequests : Traffic where
  arrivals := [request "10.0.0.1" none 1, request "10.0.0.1" none 59, request "10.0.0.1" none 60]
  ordered := by decide +kernel

theorem serve_exact_threeRequests :
    ∃ handled, (serve 1 threeRequests.arrivals)[1]? = some (request "10.0.0.1" none 59, handled) ∧
      (handled = .passedOn ↔
        (ahead (threeRequests.arrivals.take 1) (request "10.0.0.1" none 59) : Int) < 1) :=
  (serve_exact (by decide) threeRequests).1 1 _ rfl (by decide +kernel)

/-! ## One client, many keys -/

/-- The requests of a bucket in the 60 seconds from `60 * w` on. -/
def bucketCount (arrivals : List Arrival) (key : String) (w : Int) : Nat :=
  arrivals.countP fun a => a.scope.isApi && (a.scope.bucketKey = key && ⌊a.now / 60⌋ = w)

/-- The requests made in the 60 seconds from `60 * w` on. -/
def madeIn (arrivals : List Arrival) (w : Int) : Nat := arrivals.countP fun a => ⌊a.now / 60⌋ = w

/-- The requests made in these 60 seconds that were passed on. -/
def admittedIn (decided : List (Arrival × Handled)) (w : Int) : Nat :=
  decided.countP fun p => ⌊p.1.now / 60⌋ = w && p.2 = .passedOn

/-- Those of one bucket. -/
def admittedOf (decided : List (Arrival × Handled)) (key : String) (w : Int) : Nat :=
  decided.countP fun p =>
    (p.1.scope.isApi && (p.1.scope.bucketKey = key && ⌊p.1.now / 60⌋ = w)) && p.2 = .passedOn

/-- A bucket is served until `limit` of its requests were admitted. -/
theorem admittedOf_remembering (hlimit : 0 < limit) (arrivals : List Arrival) (key : String) (w : Int) :
    (admittedOf (remembering limit [] arrivals) key w : Int) =
      min limit (bucketCount arrivals key w) := by
  induction arrivals using List.reverseRecOn with
  | nil =>
      show ((0 : Nat) : Int) = min limit ((0 : Nat) : Int)
      omega
  | append_singleton arrivals a ih =>
      rw [remembering_snoc, List.nil_append]
      unfold admittedOf bucketCount at ih ⊢
      rw [List.countP_append, List.countP_append, List.countP_singleton, List.countP_singleton]
      by_cases hin : (a.scope.isApi && (a.scope.bucketKey = key && ⌊a.now / 60⌋ = w)) = true
      · have hahead : ahead arrivals a = bucketCount arrivals key w := by
          simp only [Bool.and_eq_true, decide_eq_true_eq] at hin
          rw [ahead, bucketCount, hin.2.1, hin.2.2]
        have hapi : a.scope.isApi = true := (Bool.and_eq_true _ _ ▸ hin).1
        rw [answer, hahead, bucketCount]
        by_cases hfull : limit ≤ (arrivals.countP fun a =>
            a.scope.isApi && (a.scope.bucketKey = key && ⌊a.now / 60⌋ = w) : Nat)
        · simp only [hapi, hlimit, hfull, and_self, if_true]
          simp only [reduceCtorEq, decide_false, Bool.and_false, Bool.false_eq_true, if_false]
          omega
        · simp only [hin, hfull, and_false, if_false, decide_true, Bool.and_true, if_true]
          omega
      · simp only [hin, Bool.false_and, Bool.false_eq_true, if_false]
        omega

theorem map_fst_remembering (before arrivals : List Arrival) :
    (remembering limit before arrivals).map Prod.fst = arrivals := by
  induction arrivals generalizing before with
  | nil => rfl
  | cons a rest ih => rw [remembering, List.map_cons, ih]

theorem mem_remembering {p : Arrival × Handled} (h : p ∈ remembering limit [] arrivals) :
    ∃ i, arrivals[i]? = some p.1 ∧ p.2 = answer limit (arrivals.take i) p.1 := by
  obtain ⟨i, hi⟩ := List.mem_iff_getElem?.1 h
  rw [getElem?_remembering, Option.map_eq_some_iff] at hi
  obtain ⟨a, ha, rfl⟩ := hi
  exact ⟨i, ha, rfl⟩

/-- Every request of a window was decided on. -/
theorem countP_window_remembering (limit : Int) (arrivals : List Arrival) (w : Int) :
    ((remembering limit [] arrivals).countP fun p => ⌊p.1.now / 60⌋ = w) = madeIn arrivals w := by
  have hmap := List.countP_map (p := fun a : Arrival => decide (⌊a.now / 60⌋ = w)) (f := Prod.fst)
    (l := remembering limit [] arrivals)
  rw [map_fst_remembering] at hmap
  exact hmap.symm

theorem admittedIn_le_madeIn (limit : Int) (arrivals : List Arrival) (w : Int) :
    admittedIn (remembering limit [] arrivals) w ≤ madeIn arrivals w := by
  rw [← countP_window_remembering limit]
  refine List.countP_mono_left fun p _ h => ?_
  exact (Bool.and_eq_true _ _ ▸ h).1

/-- Two tests that exclude each other count apart. -/
theorem countP_add_countP_le {α : Type*} {p q r : α → Bool} (l : List α)
    (hp : ∀ x, p x = true → r x = true) (hq : ∀ x, q x = true → r x = true)
    (hdisjoint : ∀ x, p x = true → q x = true → False) : l.countP p + l.countP q ≤ l.countP r := by
  induction l with
  | nil => exact Nat.le_refl 0
  | cons x l ih =>
      rw [List.countP_cons, List.countP_cons, List.countP_cons]
      by_cases hpx : p x = true
      · have hqx : ¬ q x = true := fun hqx => hdisjoint x hpx hqx
        simp only [hpx, hqx, hp x hpx, if_true]
        simp only [Bool.false_eq_true, if_false]
        omega
      · by_cases hqx : q x = true
        · simp only [hpx, hqx, hq x hqx, if_true, Bool.false_eq_true, if_false]
          omega
        · simp only [hpx, hqx, Bool.false_eq_true, if_false]
          split_ifs <;> omega

/-- Two buckets of a window are admitted each for itself. -/
theorem admittedOf_add_le {decided : List (Arrival × Handled)} {key' : String} (hne : key ≠ key') :
    admittedOf decided key w + admittedOf decided key' w ≤ admittedIn decided w := by
  refine countP_add_countP_le decided (fun p h => ?_) (fun p h => ?_) fun p h h' => ?_
  · simp only [Bool.and_eq_true, decide_eq_true_eq] at h ⊢
    exact ⟨h.1.2.2, h.2⟩
  · simp only [Bool.and_eq_true, decide_eq_true_eq] at h ⊢
    exact ⟨h.1.2.2, h.2⟩
  · simp only [Bool.and_eq_true, decide_eq_true_eq] at h h'
    exact hne (h.1.2.1.symm.trans h'.1.2.1)

theorem one_le_bucketCount (ha : a ∈ arrivals) (hapi : a.scope.isApi = true) :
    1 ≤ bucketCount arrivals a.scope.bucketKey ⌊a.now / 60⌋ :=
  List.countP_pos_iff.2 ⟨a, ha, by simp [hapi]⟩

/-- Where a window stays within the limit, a bucket that is not the only one is not full. -/
theorem bucketCount_lt (hlimit : 0 < limit) {key' : String} (hne : key ≠ key')
    (hone : 1 ≤ bucketCount arrivals key' w)
    (hadmitted : (admittedIn (remembering limit [] arrivals) w : Int) ≤ limit) :
    (bucketCount arrivals key w : Int) < limit := by
  by_contra hfull
  have hadd : admittedOf (remembering limit [] arrivals) key w +
      admittedOf (remembering limit [] arrivals) key' w ≤
        admittedIn (remembering limit [] arrivals) w := admittedOf_add_le hne
  have hkey := admittedOf_remembering hlimit arrivals key w
  have hkey' := admittedOf_remembering hlimit arrivals key' w
  omega

/-- Where no bucket is full, every request of the window is admitted. -/
theorem madeIn_le_admittedIn (hopen : ∀ key, (bucketCount arrivals key w : Int) < limit) :
    madeIn arrivals w ≤ admittedIn (remembering limit [] arrivals) w := by
  rw [← countP_window_remembering limit]
  refine List.countP_mono_left fun p hp hw => ?_
  obtain ⟨i, -, hanswer⟩ := mem_remembering hp
  rw [decide_eq_true_eq] at hw
  have hle : ahead (arrivals.take i) p.1 ≤ bucketCount arrivals p.1.scope.bucketKey w := by
    rw [← hw]
    exact (List.take_sublist i arrivals).countP_le
  have hpassed : p.2 = .passedOn := by
    rw [hanswer, answer]
    refine if_neg fun hfull => ?_
    have := hopen p.1.scope.bucketKey
    omega
  simp [hw, hpassed]

/-- Where a window has one bucket, the requests admitted are those of the bucket. -/
theorem admittedIn_le_admittedOf (limit : Int) (hapi : ∀ a ∈ arrivals, a.scope.isApi = true)
    (hkey : ∀ a ∈ arrivals, ⌊a.now / 60⌋ = w → a.scope.bucketKey = key) :
    admittedIn (remembering limit [] arrivals) w ≤
      admittedOf (remembering limit [] arrivals) key w := by
  refine List.countP_mono_left fun p hp hpassed => ?_
  obtain ⟨i, hi, -⟩ := mem_remembering hp
  have hmem := List.mem_of_getElem? hi
  simp only [Bool.and_eq_true, decide_eq_true_eq] at hpassed ⊢
  exact ⟨⟨hapi _ hmem, hkey _ hmem hpassed.1, hpassed.1⟩, hpassed.2⟩

/-- Where the clock does not go back, at most `limit` requests of each 60 seconds get through exactly if
    no more than that are made or all of them name one bucket. -/
theorem admittedIn_le_iff (hlimit : 0 < limit) (traffic : Traffic)
    (hapi : ∀ a ∈ traffic.arrivals, a.scope.isApi = true) :
    (∀ w, (admittedIn (serve limit traffic.arrivals) w : Int) ≤ limit) ↔
      ∀ w, (madeIn traffic.arrivals w : Int) ≤ limit ∨
        ∀ a ∈ traffic.arrivals, ∀ b ∈ traffic.arrivals, ⌊a.now / 60⌋ = w → ⌊b.now / 60⌋ = w →
          a.scope.bucketKey = b.scope.bucketKey := by
  rw [serve_eq]
  generalize traffic.arrivals = arrivals at hapi
  constructor
  · intro h w
    by_contra hc
    rw [not_or, not_le] at hc
    obtain ⟨hmade, hkeys⟩ := hc
    push Not at hkeys
    obtain ⟨a, ha, b, hb, haw, hbw, hne⟩ := hkeys
    have honeA : 1 ≤ bucketCount arrivals a.scope.bucketKey w := haw ▸ one_le_bucketCount ha (hapi a ha)
    have honeB : 1 ≤ bucketCount arrivals b.scope.bucketKey w := hbw ▸ one_le_bucketCount hb (hapi b hb)
    have hopen : ∀ key, (bucketCount arrivals key w : Int) < limit := by
      intro key
      by_cases hkey : key = a.scope.bucketKey
      · exact bucketCount_lt hlimit (hkey ▸ hne) honeB (h w)
      · exact bucketCount_lt hlimit hkey honeA (h w)
    have hadmitted := h w
    have hall := madeIn_le_admittedIn hopen
    omega
  · intro h w
    rcases h w with hmade | hkeys
    · have := admittedIn_le_madeIn limit arrivals w
      omega
    · by_cases hnone : ∃ a ∈ arrivals, ⌊a.now / 60⌋ = w
      · obtain ⟨a, ha, haw⟩ := hnone
        have hle := admittedIn_le_admittedOf limit hapi fun b hb hbw => hkeys b hb a ha hbw haw
        have := admittedOf_remembering hlimit arrivals a.scope.bucketKey w
        omega
      · have hzero : madeIn arrivals w = 0 := by
          rw [madeIn, List.countP_eq_zero]
          exact fun a ha hw => hnone ⟨a, ha, of_decide_eq_true hw⟩
        have := admittedIn_le_madeIn limit arrivals w
        omega

/-- In the first minute, in which two requests are made. -/
theorem admittedIn_le_iff_threeRequests :
    (admittedIn (serve 1 threeRequests.arrivals) 0 : Int) ≤ 1 := by
  have hsame : ∀ a ∈ threeRequests.arrivals, a.scope.bucketKey = "10.0.0.1" := by decide +kernel
  refine (admittedIn_le_iff (by decide) threeRequests (by decide +kernel)).2 (fun w => ?_) 0
  exact .inr fun a ha b hb _ _ => (hsame a ha).trans (hsame b hb).symm

/-- One key, one request a minute. -/
def oneKey : HttpSettings where
  apiKey := some "secret"
  rateLimitPerMinute := 1

/-- One client makes up a new key for each request. -/
def madeUpKeys : Traffic where
  arrivals := [request "10.0.0.1" (some "a") 1, request "10.0.0.1" (some "b") 2]
  ordered := by decide +kernel

/-- None of the keys is configured, and both requests are passed on in one minute. -/
theorem madeUpKeys_admitted :
    (∀ a ∈ madeUpKeys.arrivals, a.scope.isApi = true ∧ a.scope.address = some "10.0.0.1" ∧
      (requireApiKey oneKey a.scope).isOk = false) ∧
      admittedIn (serve oneKey.rateLimitPerMinute madeUpKeys.arrivals) 0 = 2 := by
  decide +kernel

/-! ## Two clients -/

/-- The requests of everyone but the client at the address. -/
def Traffic.without (traffic : Traffic) (address : String) : Traffic where
  arrivals := traffic.arrivals.filter fun a => a.scope.address ≠ some address
  ordered := traffic.ordered.filter _

/-- What became of the requests of the client at the address. -/
def decisionsOf (address : String) (decided : List (Arrival × Handled)) : List (Arrival × Handled) :=
  decided.filter fun p => p.1.scope.address = some address

/-- What becomes of the requests of `first` does not depend on those of `second`. -/
def Isolated (limit : Int) (traffic : Traffic) (first second : String) : Prop :=
  decisionsOf first (serve limit traffic.arrivals) =
    decisionsOf first (serve limit (Traffic.without traffic second).arrivals)

/-- The earlier requests of everyone but `second` in the bucket and the window of the request. -/
def aheadWithout (second : String) (before : List Arrival) (a : Arrival) : Nat :=
  ahead (before.filter fun b => b.scope.address ≠ some second) a

/-- The earlier requests of `second` in the bucket and the window of the request. -/
def aheadFrom (second : String) (before : List Arrival) (a : Arrival) : Nat :=
  ahead (before.filter fun b => b.scope.address = some second) a

theorem ahead_eq_add (second : String) (before : List Arrival) (a : Arrival) :
    ahead before a = aheadWithout second before a + aheadFrom second before a := by
  unfold ahead aheadWithout aheadFrom ahead
  rw [List.countP_eq_countP_filter_add before _ fun b => decide (b.scope.address ≠ some second)]
  congr 2
  refine List.filter_congr fun b _ => ?_
  simp

/-- Two limiters agree on a request unless one counts up to the limit and the other does not. -/
theorem answer_eq_answer_iff {before' : List Arrival} (hle : ahead before' a ≤ ahead before a) :
    answer limit before a = answer limit before' a ↔
      ¬ (a.scope.isApi = true ∧ (ahead before' a : Int) < limit ∧ limit ≤ ahead before a) := by
  unfold answer
  split_ifs with h h'
  · exact iff_of_true rfl fun hc => not_lt.2 h'.2.2 hc.2.1
  · refine iff_of_false nofun fun hc => hc ⟨h.1, not_le.1 fun hle' => h' ⟨h.1, h.2.1, hle'⟩, h.2.2⟩
  · next h' =>
      have : limit ≤ ahead before a := by omega
      exact absurd ⟨h'.1, h'.2.1, this⟩ h
  · refine iff_of_true rfl fun hc => h ⟨hc.1, ?_, hc.2.2⟩
    omega

/-- The requests that pass `p` are decided in the same way with and without those that fail `q`. -/
theorem filter_remembering_eq_iff (limit : Int) {p q : Arrival → Bool}
    (hpq : ∀ a, p a = true → q a = true) (before arrivals : List Arrival) :
    (remembering limit before arrivals).filter (fun r => p r.1) =
        (remembering limit (before.filter q) (arrivals.filter q)).filter (fun r => p r.1) ↔
      ∀ (i : Nat) a, arrivals[i]? = some a → p a = true →
        answer limit (before ++ arrivals.take i) a =
          answer limit ((before ++ arrivals.take i).filter q) a := by
  induction arrivals generalizing before with
  | nil => simp [remembering]
  | cons b rest ih =>
      have hrest : (∀ (i : Nat) a, (b :: rest)[i]? = some a → p a = true →
          answer limit (before ++ (b :: rest).take i) a =
            answer limit ((before ++ (b :: rest).take i).filter q) a) ↔
          (p b = true → answer limit before b = answer limit (before.filter q) b) ∧
          ∀ (i : Nat) a, rest[i]? = some a → p a = true →
            answer limit ((before ++ [b]) ++ rest.take i) a =
              answer limit (((before ++ [b]) ++ rest.take i).filter q) a := by
        constructor
        · intro h
          refine ⟨fun hb => by simpa using h 0 b rfl hb, fun i a ha hp => ?_⟩
          simpa using h (i + 1) a ha hp
        · rintro ⟨hb, h⟩ i a ha hp
          cases i with
          | zero =>
              obtain rfl := Option.some.inj ha
              simpa using hb hp
          | succ i => simpa using h i a ha hp
      rw [hrest, ← ih (before ++ [b])]
      by_cases hq : q b = true
      · rw [List.filter_cons_of_pos hq, remembering, remembering, List.filter_append,
          List.filter_cons_of_pos hq, List.filter_nil]
        by_cases hp : p b = true
        · simp [hp]
        · simp [hp]
      · have hp : ¬ p b = true := fun hp => hq (hpq b hp)
        rw [List.filter_cons_of_neg hq, remembering, List.filter_append, List.filter_cons_of_neg hq,
          List.filter_nil, List.append_nil]
        simp [hp]

/-- The requests of `second` matter to a request of `first` exactly if it arrives when the others in its
    bucket leave room and those of `second` have taken it. -/
theorem isolated_iff_room (limit : Int) (traffic : Traffic) {first second : String}
    (hne : first ≠ second) :
    Isolated limit traffic first second ↔
      ∀ (i : Nat) a, traffic.arrivals[i]? = some a → a.scope.address = some first →
        a.scope.isApi = true →
          ¬ ((aheadWithout second (traffic.arrivals.take i) a : Int) < limit ∧
            limit ≤ aheadWithout second (traffic.arrivals.take i) a +
              aheadFrom second (traffic.arrivals.take i) a) := by
  unfold Isolated decisionsOf
  rw [serve_eq, serve_eq]
  have hfilter := filter_remembering_eq_iff limit
    (p := fun a => a.scope.address = some first) (q := fun a => a.scope.address ≠ some second)
    (fun a ha => by
      rw [decide_eq_true_eq] at ha ⊢
      rw [ha]
      exact fun heq => hne (Option.some.inj heq)) [] traffic.arrivals
  refine hfilter.trans ?_
  simp only [decide_eq_true_eq, List.nil_append]
  refine forall_congr' fun i => forall_congr' fun a => forall_congr' fun ha => ?_
  refine forall_congr' fun hp => ?_
  rw [answer_eq_answer_iff List.filter_sublist.countP_le,
    ahead_eq_add second (traffic.arrivals.take i)]
  push_cast
  exact not_and

/-- A client lands in the bucket of another address only with that address as its key. -/
theorem header_of_bucketKey_eq {b : Arrival} {first second : String} (hne : first ≠ second)
    (hsecond : b.scope.address = some second) (hbucket : b.scope.bucketKey = first) :
    header b.scope (ascii "x-api-key") = some first := by
  rw [Scope.bucketKey, hsecond] at hbucket
  simp only [orElse] at hbucket
  cases hkey : header b.scope (ascii "x-api-key") with
  | none =>
      rw [hkey] at hbucket
      exact absurd hbucket.symm hne
  | some key =>
      rw [hkey] at hbucket
      dsimp only at hbucket
      split_ifs at hbucket
      · exact absurd hbucket.symm hne
      · exact congrArg some hbucket

theorem bucketKey_of_keyless {first : String} (hfirst : a.scope.address = some first)
    (hkey : header a.scope (ascii "x-api-key") = none) : a.scope.bucketKey = first := by
  rw [Scope.bucketKey, hkey, hfirst]
  rfl

/-- The requests of `second` change what becomes of a request of `first` exactly if it arrives when the
    others in its bucket leave room and those of `second` have taken it. They are in that bucket when
    they carry the address of `first` as their API key, so they never do that otherwise. -/
theorem isolated_iff (limit : Int) (traffic : Traffic) {first second : String} (hne : first ≠ second)
    (hkeyless : ∀ a ∈ traffic.arrivals, a.scope.address = some first →
      header a.scope (ascii "x-api-key") = none) :
    (Isolated limit traffic first second ↔
      ∀ (i : Nat) a, traffic.arrivals[i]? = some a → a.scope.address = some first →
        a.scope.isApi = true →
          ¬ ((aheadWithout second (traffic.arrivals.take i) a : Int) < limit ∧
            limit ≤ aheadWithout second (traffic.arrivals.take i) a +
              aheadFrom second (traffic.arrivals.take i) a)) ∧
      ((∀ b ∈ traffic.arrivals, b.scope.address = some second →
        header b.scope (ascii "x-api-key") ≠ some first) → Isolated limit traffic first second) := by
  refine ⟨isolated_iff_room limit traffic hne, fun hforeign => ?_⟩
  refine (isolated_iff_room limit traffic hne).2 fun i a ha hfirst _ hc => ?_
  have hbucketA := bucketKey_of_keyless hfirst (hkeyless a (List.mem_of_getElem? ha) hfirst)
  have hzero : aheadFrom second (traffic.arrivals.take i) a = 0 := by
    rw [aheadFrom, ahead, List.countP_eq_zero]
    intro b hb hcount
    obtain ⟨hmem, hsecond⟩ := List.mem_filter.1 hb
    rw [decide_eq_true_eq] at hsecond
    simp only [Bool.and_eq_true, decide_eq_true_eq] at hcount
    have hbucket := hcount.2.1.trans hbucketA
    exact hforeign b (List.mem_of_mem_take hmem) hsecond (header_of_bucketKey_eq hne hsecond hbucket)
  omega

/-- The second client sends the address of the first as its key. -/
def borrowedKey : Traffic where
  arrivals := [request "10.0.0.2" (some "10.0.0.1") 1, request "10.0.0.1" none 2]
  ordered := by decide +kernel

/-- The request of the first client is rejected, and admitted when the second client is silent. -/
theorem borrowedKey_not_isolated :
    (∀ a ∈ borrowedKey.arrivals, a.scope.isApi = true ∧
      (a.scope.address = some "10.0.0.1" → header a.scope (ascii "x-api-key") = none)) ∧
      ¬ Isolated 1 borrowedKey "10.0.0.1" "10.0.0.2" := by
  unfold Isolated
  decide +kernel

/-- A client that sends keys of its own does no harm. -/
def ownKey : Traffic where
  arrivals := [request "10.0.0.2" (some "k") 1, request "10.0.0.1" none 2]
  ordered := by decide +kernel

theorem isolated_iff_ownKey : Isolated 1 ownKey "10.0.0.1" "10.0.0.2" :=
  (isolated_iff 1 ownKey (by decide) (by decide +kernel)).2 (by decide +kernel)

end RateLimit

end AgenticExecution
