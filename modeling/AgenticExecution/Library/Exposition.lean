import Mathlib.Data.List.TakeWhile
import Mathlib.Data.List.Nodup

set_option autoImplicit false

/-! # The text exposition format

A document lists metric families. A family is a comment line with its help text, a comment line with
its kind, and one line for each sample, `name{labels} value` or `name value`. The reader is strict: a
family is declared once, its samples follow it without another family in between, and no two of them
have the same labels. -/

namespace Exposition

/-- `labels` is what stands between the braces; without labels there are none. -/
structure Sample where
  labels : List Char
  value : List Char

/-- A metric with its samples. -/
structure Family where
  name : List Char
  help : List Char
  kind : List Char
  samples : List Sample

/-- A line of the format. -/
inductive Line
  | help (name text : List Char)
  | kind (name text : List Char)
  | sample (name : List Char) (s : Sample)

/-! ## Writing -/

/-- How a line with a help text starts. -/
def helpMark : List Char := "# HELP ".toList

/-- How a line with a metric type starts. -/
def kindMark : List Char := "# TYPE ".toList

/-- The characters of a line. -/
def Line.text : Line → List Char
  | .help name text => helpMark ++ (name ++ ' ' :: text)
  | .kind name text => kindMark ++ (name ++ ' ' :: text)
  | .sample name s =>
    name ++ ((if s.labels = [] then [] else '{' :: (s.labels ++ ['}'])) ++ ' ' :: s.value)

/-- The lines of a family: its two comments, then its samples. -/
def Family.lines (f : Family) : List Line :=
  .help f.name f.help :: .kind f.name f.kind :: f.samples.map (.sample f.name)

/-- Every line ends with a line feed. -/
def write (families : List Family) : List Char :=
  ['\n'].intercalate (((families.flatMap Family.lines).map Line.text) ++ [[]])

/-! ## Reading -/

/-- What follows `mark` at the start of a text. -/
def after? (mark cs : List Char) : Option (List Char) :=
  if mark.isPrefixOf cs then some (cs.drop mark.length) else none

/-- The text before the first blank and the text behind it. -/
def word? (cs : List Char) : Option (List Char × List Char) :=
  match cs.dropWhile (· ≠ ' ') with
  | [] => none
  | _ :: rest => some (cs.takeWhile (· ≠ ' '), rest)

/-- A character of a metric name. -/
def isNameChar (c : Char) : Bool := c ≠ ' ' && c ≠ '{' && c ≠ '\n' && c ≠ '#'

/-- The sample in a line. -/
def readSample (cs : List Char) : Option Line :=
  let name := cs.takeWhile isNameChar
  match cs.dropWhile isNameChar with
  | [] => none
  | c :: rest =>
    if c = ' ' then some (.sample name ⟨[], rest⟩)
    else
      match rest.dropWhile (· ≠ '}') with
      | _ :: ' ' :: value => some (.sample name ⟨rest.takeWhile (· ≠ '}'), value⟩)
      | _ => none

/-- A line, by how it starts. -/
def readLine (cs : List Char) : Option Line :=
  match after? helpMark cs with
  | some rest => (word? rest).map fun p => .help p.1 p.2
  | none =>
    match after? kindMark cs with
    | some rest => (word? rest).map fun p => .kind p.1 p.2
    | none => readSample cs

/-- Take in one line; the families read so far stand with the latest first. -/
def addLine (families : List Family) : Line → Option (List Family)
  | .help name text =>
    if name ∈ families.map Family.name then none else some (⟨name, text, [], []⟩ :: families)
  | .kind name text =>
    match families with
    | [] => none
    | f :: rest =>
      if f.name = name ∧ f.kind = [] ∧ f.samples.isEmpty then some ({ f with kind := text } :: rest)
      else none
  | .sample name s =>
    match families with
    | [] => none
    | f :: rest =>
      if f.name = name ∧ f.kind ≠ [] ∧ s.labels ∉ f.samples.map Sample.labels then
        some ({ f with samples := f.samples ++ [s] } :: rest)
      else none

/-- The families of a document, `none` where it is malformed. -/
def read (text : List Char) : Option (List Family) :=
  match (text.splitOn '\n').reverse with
  | [] :: lines =>
    ((lines.reverse.mapM readLine).bind fun lines => lines.foldlM addLine []).map List.reverse
  | _ => none

/-! ## What is written is read back -/

/-- The labels and the value do not break the line. -/
structure Sample.WellFormed (s : Sample) : Prop where
  labels : '}' ∉ s.labels ∧ '\n' ∉ s.labels
  value : '\n' ∉ s.value

/-- The name, the comments and the samples can be read back. -/
structure Family.WellFormed (f : Family) : Prop where
  name : ∀ c ∈ f.name, isNameChar c = true
  help : '\n' ∉ f.help
  kind : f.kind ≠ [] ∧ '\n' ∉ f.kind
  samples : ∀ s ∈ f.samples, s.WellFormed
  distinct : (f.samples.map Sample.labels).Nodup

variable {f : Family} {families : List Family}

theorem after?_append (mark cs : List Char) : after? mark (mark ++ cs) = some cs := by
  simp [after?]

theorem after?_eq_none {c : Char} {mark cs : List Char} (h : cs.head? ≠ some c) :
    after? (c :: mark) cs = none := by
  cases cs with
  | nil => rfl
  | cons d cs =>
      have hne : ¬ c = d := fun heq => h (heq ▸ rfl)
      simp [after?, hne]

/-- Where a text goes on until the first character that is not in `p`. -/
theorem span_append {p : Char → Bool} {pre : List Char} {c : Char} (rest : List Char)
    (hpre : ∀ d ∈ pre, p d = true) (hc : p c = false) :
    (pre ++ c :: rest).takeWhile p = pre ∧ (pre ++ c :: rest).dropWhile p = c :: rest := by
  rw [List.takeWhile_append_of_pos hpre, List.dropWhile_append_of_pos hpre]
  simp [hc]

theorem forall_ne {c : Char} {cs : List Char} (h : c ∉ cs) : ∀ d ∈ cs, decide (d ≠ c) = true :=
  fun _ hd => decide_eq_true fun heq => h (heq ▸ hd)

theorem word?_append {name text : List Char} (h : ' ' ∉ name) :
    word? (name ++ ' ' :: text) = some (name, text) := by
  obtain ⟨htake, hdrop⟩ := span_append text (forall_ne h)
    (show decide (' ' ≠ ' ') = false by simp)
  rw [word?, hdrop, htake]

theorem readSample_text {name : List Char} {s : Sample} (hname : ∀ c ∈ name, isNameChar c = true)
    (hs : s.WellFormed) : readSample (Line.sample name s).text = some (.sample name s) := by
  obtain ⟨labels, value⟩ := s
  by_cases hlabels : labels = []
  · subst hlabels
    obtain ⟨htake, hdrop⟩ := span_append value hname (show isNameChar ' ' = false by decide)
    simp only [Line.text, if_pos, List.nil_append, readSample, htake, hdrop]
  · obtain ⟨htake, hdrop⟩ := span_append (labels ++ '}' :: ' ' :: value) hname
      (show isNameChar '{' = false by decide)
    obtain ⟨htake', hdrop'⟩ := span_append (' ' :: value) (forall_ne hs.labels.1)
      (show decide ('}' ≠ '}') = false by simp)
    have htext : (Line.sample name ⟨labels, value⟩).text =
        name ++ '{' :: (labels ++ '}' :: ' ' :: value) := by
      simp [Line.text, hlabels]
    rw [htext]
    simp only [readSample, htake, hdrop, htake', hdrop']
    rfl

/-- A metric name does not look like a comment. -/
theorem sample_text_head {name : List Char} {s : Sample} (hname : ∀ c ∈ name, isNameChar c = true) :
    (Line.sample name s).text.head? ≠ some '#' := by
  cases name with
  | cons c name =>
      rintro heq
      have hc := hname c List.mem_cons_self
      simp only [Line.text, List.cons_append, List.head?_cons, Option.some.injEq] at heq
      simp [heq, isNameChar] at hc
  | nil =>
      simp only [Line.text, List.nil_append]
      split <;> simp

/-- The line belongs to a well-formed family of that name. -/
def Line.WellFormed : Line → Prop
  | .help name text => (∀ c ∈ name, isNameChar c = true) ∧ '\n' ∉ text
  | .kind name text => (∀ c ∈ name, isNameChar c = true) ∧ '\n' ∉ text
  | .sample name s => (∀ c ∈ name, isNameChar c = true) ∧ s.WellFormed

theorem not_mem_name {name : List Char} {c : Char} (hname : ∀ c ∈ name, isNameChar c = true)
    (hc : isNameChar c = false) : c ∉ name := by
  intro hmem
  rw [hname c hmem] at hc
  cases hc

theorem readLine_text {l : Line} (h : l.WellFormed) : readLine l.text = some l := by
  cases l with
  | help name text =>
      rw [readLine, Line.text, after?_append]
      simp only [word?_append (not_mem_name h.1 (c := ' ') (by decide)), Option.map_some]
  | kind name text =>
      have hhelp : after? helpMark (Line.kind name text).text = none := rfl
      rw [readLine, hhelp]
      simp only [Line.text, after?_append, word?_append (not_mem_name h.1 (c := ' ') (by decide)),
        Option.map_some]
  | sample name s =>
      have hhelp : after? helpMark (Line.sample name s).text = none :=
        after?_eq_none (sample_text_head h.1)
      have hkind : after? kindMark (Line.sample name s).text = none :=
        after?_eq_none (sample_text_head h.1)
      rw [readLine, hhelp]
      simp only [hkind]
      exact readSample_text h.1 h.2

theorem newline_not_mem_text {l : Line} (h : l.WellFormed) : '\n' ∉ l.text := by
  have hname : ∀ {name : List Char}, (∀ c ∈ name, isNameChar c = true) → '\n' ∉ name :=
    fun h => not_mem_name h (by decide)
  cases l with
  | help name text =>
      have hmark : '\n' ∉ helpMark := by decide
      simp [Line.text, hmark, hname h.1, h.2]
  | kind name text =>
      have hmark : '\n' ∉ kindMark := by decide
      simp [Line.text, hmark, hname h.1, h.2]
  | sample name s =>
      have hlabels := h.2.labels.2
      simp only [Line.text, List.mem_append, List.mem_cons, not_or]
      refine ⟨hname h.1, ?_, by decide, h.2.value⟩
      split
      · simp
      · simp [hlabels]

theorem Family.WellFormed.lines (h : f.WellFormed) : ∀ l ∈ f.lines, l.WellFormed := by
  intro l hl
  simp only [Family.lines, List.mem_cons, List.mem_map] at hl
  rcases hl with rfl | rfl | ⟨s, hs, rfl⟩
  · exact ⟨h.name, h.help⟩
  · exact ⟨h.name, h.kind.2⟩
  · exact ⟨h.name, h.samples s hs⟩

/-! ## Grouping the lines -/

theorem foldlM_samples (done : List Family) (seen rest : List Sample)
    (hkind : f.kind ≠ []) (hsamples : f.samples = seen ++ rest)
    (hdistinct : (f.samples.map Sample.labels).Nodup) :
    (rest.map (Line.sample f.name)).foldlM addLine ({ f with samples := seen } :: done) =
      some (f :: done) := by
  induction rest generalizing seen with
  | nil =>
      rw [List.append_nil] at hsamples
      subst hsamples
      rfl
  | cons s rest ih =>
      have hnew : s.labels ∉ seen.map Sample.labels := by
        rw [hsamples, List.map_append, List.map_cons] at hdistinct
        exact fun hmem => (List.nodup_append.1 hdistinct).2.2 _ hmem _ List.mem_cons_self rfl
      have hadd : addLine ({ f with samples := seen } :: done) (.sample f.name s) =
          some ({ f with samples := seen ++ [s] } :: done) := by
        rw [addLine, if_pos ⟨rfl, hkind, hnew⟩]
      rw [List.map_cons, List.foldlM_cons, hadd]
      exact ih (seen ++ [s]) (by simpa using hsamples)

theorem foldlM_lines {done : List Family} (h : f.WellFormed) (hnew : f.name ∉ done.map Family.name) :
    f.lines.foldlM addLine done = some (f :: done) := by
  have hhelp : addLine done (.help f.name f.help) = some (⟨f.name, f.help, [], []⟩ :: done) := by
    rw [addLine, if_neg hnew]
  have hkind : addLine (⟨f.name, f.help, [], []⟩ :: done) (.kind f.name f.kind) =
      some (⟨f.name, f.help, f.kind, []⟩ :: done) := by
    rw [addLine, if_pos ⟨rfl, rfl, rfl⟩]
  rw [Family.lines, List.foldlM_cons, hhelp]
  show (List.foldlM addLine _ _) = _
  rw [List.foldlM_cons, hkind]
  exact foldlM_samples done [] f.samples h.kind.1 rfl h.distinct

theorem foldlM_families (done : List Family) (h : ∀ f ∈ families, f.WellFormed)
    (hnodup : ((done.reverse ++ families).map Family.name).Nodup) :
    (families.flatMap Family.lines).foldlM addLine done = some (families.reverse ++ done) := by
  induction families generalizing done with
  | nil => rfl
  | cons f rest ih =>
      have hnew : f.name ∉ done.map Family.name := by
        rw [List.map_append, List.map_cons] at hnodup
        intro hmem
        refine (List.nodup_append.1 hnodup).2.2 f.name ?_ f.name List.mem_cons_self rfl
        rw [List.map_reverse]
        exact List.mem_reverse.2 hmem
      rw [List.flatMap_cons, List.foldlM_append, foldlM_lines (h f List.mem_cons_self) hnew]
      show (List.foldlM addLine _ _) = _
      rw [ih (f :: done) (fun g hg => h g (List.mem_cons_of_mem f hg)) (by simpa using hnodup)]
      simp

theorem mapM_readLine {lines : List Line} (h : ∀ l ∈ lines, l.WellFormed) :
    (lines.map Line.text).mapM readLine = some lines := by
  induction lines with
  | nil => rfl
  | cons l rest ih =>
      rw [List.map_cons, List.mapM_cons, readLine_text (h l List.mem_cons_self),
        ih fun l' hl' => h l' (List.mem_cons_of_mem l hl')]
      rfl

/-- A document of well-formed families with different names is read back as it was written. -/
theorem read_write (h : ∀ f ∈ families, f.WellFormed) (hnodup : (families.map Family.name).Nodup) :
    read (write families) = some families := by
  have hlines : ∀ l ∈ families.flatMap Family.lines, l.WellFormed := by
    intro l hl
    obtain ⟨f, hf, hl⟩ := List.mem_flatMap.1 hl
    exact (h f hf).lines l hl
  have hsplit : (write families).splitOn '\n' =
      (families.flatMap Family.lines).map Line.text ++ [[]] := by
    refine List.splitOn_intercalate '\n' ?_ (by simp)
    intro cs hcs
    rcases List.mem_append.1 hcs with hline | hlast
    · obtain ⟨l, hl, rfl⟩ := List.mem_map.1 hline
      exact newline_not_mem_text (hlines l hl)
    · rw [List.mem_singleton.1 hlast]
      exact List.not_mem_nil
  have hread := foldlM_families [] h (by simpa using hnodup)
  rw [read, hsplit, List.reverse_append]
  simp only [List.reverse_singleton, List.singleton_append, List.reverse_reverse,
    mapM_readLine hlines, Option.bind_some, hread, List.append_nil, Option.map_some]

end Exposition
