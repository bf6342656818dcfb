import Mathlib.Data.List.TakeWhile
import Mathlib.Data.List.Infix

set_option autoImplicit false

/-! # Server-sent events

The event stream format. A line gives a field of the event under construction, an empty line sends the
event off, and a line that starts with a colon is a comment. The reader takes in one character after
another, so it does not matter how a connection cuts the text up, and what it has dispatched when the
connection ends is a beginning of what the whole text says. -/

namespace EventSource

/-- The field of an event's type. -/
def eventField : List Char := "event".toList

/-- The field of a line of its data. -/
def dataField : List Char := "data".toList

/-- An event as a listener gets it. -/
structure Event where
  type : List Char
  data : List Char
  deriving DecidableEq

/-! ## Reading -/

/-- The state of a reader; `afterCr` is set right after a carriage return. -/
structure Reader where
  line : List Char := []
  type : List Char := []
  data : List (List Char) := []
  afterCr : Bool := false
  events : List Event := []

namespace Reader

/-- The event under construction, unless it has no data. -/
def pending (r : Reader) : List Event :=
  if r.data = [] then []
  else [{ type := if r.type = [] then "message".toList else r.type
          data := ['\n'].intercalate r.data }]

/-- An empty line: the event goes to the listeners. -/
def dispatch (r : Reader) : Reader :=
  { r with type := [], data := [], events := r.events ++ r.pending }

/-- A field takes its value; unknown ones are ignored. -/
def field (r : Reader) (name value : List Char) : Reader :=
  if name = eventField then { r with type := value }
  else if name = dataField then { r with data := r.data ++ [value] }
  else r

/-- One blank behind the colon does not belong to the value. -/
def dropBlank : List Char → List Char
  | ' ' :: rest => rest
  | cs => cs

/-- What a whole line does. -/
def process (r : Reader) (line : List Char) : Reader :=
  match line with
  | [] => r.dispatch
  | c :: rest =>
    if c = ':' then r
    else
      r.field ((c :: rest).takeWhile (· ≠ ':'))
        (dropBlank (((c :: rest).dropWhile (· ≠ ':')).drop 1))

/-- A line ends with a line feed, a carriage return, or both. -/
def step (r : Reader) (c : Char) : Reader :=
  if c = '\n' then
    if r.afterCr then { r with afterCr := false } else { r.process r.line with line := [] }
  else if c = '\r' then { r.process r.line with line := [], afterCr := true }
  else { r with line := r.line ++ [c], afterCr := false }

/-- Reading characters, one after another. -/
def feed (r : Reader) (cs : List Char) : Reader := cs.foldl step r

end Reader

/-- The events dispatched while a text is read. -/
def read (text : List Char) : List Event := (Reader.feed {} text).events

/-! ## Writing -/

/-- What a server writes at once. -/
inductive Item
  | event (e : Event)
  | comment (text : List Char)

/-- The characters of an item, with the empty line that ends it. -/
def Item.text : Item → List Char
  | .event e =>
    eventField ++ ':' :: ' ' :: e.type ++ '\n' ::
      (dataField ++ ':' :: ' ' :: e.data ++ ['\n', '\n'])
  | .comment text => ':' :: (text ++ ['\n', '\n'])

/-- A comment is no event. -/
def Item.event? : Item → Option Event
  | .event e => some e
  | .comment _ => none

/-- The items, one after the other. -/
def write (items : List Item) : List Char := items.flatMap Item.text

/-- No line ends in the middle of the item, and an event has a type. -/
def Item.WellFormed : Item → Prop
  | .event e => e.type ≠ [] ∧ ('\n' ∉ e.type ∧ '\r' ∉ e.type) ∧ '\n' ∉ e.data ∧ '\r' ∉ e.data
  | .comment text => '\n' ∉ text ∧ '\r' ∉ text

/-! ## Any cut -/

variable {r : Reader} {cs ds : List Char}

theorem Reader.feed_append (r : Reader) (cs ds : List Char) :
    r.feed (cs ++ ds) = (r.feed cs).feed ds :=
  List.foldl_append

theorem Reader.events_process (r : Reader) (line : List Char) :
    r.events <+: (r.process line).events := by
  unfold Reader.process
  split
  · exact List.prefix_append _ _
  · split_ifs
    · exact List.prefix_refl _
    · unfold Reader.field
      split_ifs <;> exact List.prefix_refl _

theorem Reader.events_step (r : Reader) (c : Char) : r.events <+: (r.step c).events := by
  unfold Reader.step
  split_ifs
  · exact List.prefix_refl _
  · exact r.events_process r.line
  · exact r.events_process r.line
  · exact List.prefix_refl _

theorem Reader.events_feed (r : Reader) (cs : List Char) : r.events <+: (r.feed cs).events := by
  induction cs generalizing r with
  | nil => exact List.prefix_refl _
  | cons c cs ih => exact (r.events_step c).trans (ih (r.step c))

/-- A beginning of a text says a beginning of what the text says. -/
theorem read_prefix (h : cs <+: ds) : read cs <+: read ds := by
  obtain ⟨rest, rfl⟩ := h
  unfold read
  rw [Reader.feed_append]
  exact Reader.events_feed _ rest

/-! ## What is written is read back -/

theorem Reader.step_char {c : Char} (hcr : r.afterCr = false) (hlf : c ≠ '\n') (hcr' : c ≠ '\r') :
    r.step c = { r with line := r.line ++ [c] } := by
  unfold Reader.step
  rw [if_neg hlf, if_neg hcr', ← hcr]

theorem Reader.feed_chars (hcr : r.afterCr = false) (h : '\n' ∉ cs ∧ '\r' ∉ cs) :
    r.feed cs = { r with line := r.line ++ cs } := by
  induction cs generalizing r with
  | nil =>
      rw [List.append_nil]
      rfl
  | cons c cs ih =>
      obtain ⟨hlf, hlf'⟩ := not_or.1 (mt List.mem_cons.2 h.1)
      obtain ⟨hcr', hcr''⟩ := not_or.1 (mt List.mem_cons.2 h.2)
      show (r.step c).feed cs = _
      rw [Reader.step_char hcr (Ne.symm hlf) (Ne.symm hcr'), ih (by exact hcr) ⟨hlf', hcr''⟩]
      simp

/-- What a line says does not depend on the characters of it that were read before. -/
theorem Reader.process_line (r : Reader) (line cs : List Char) :
    { ({ r with line := cs } : Reader).process line with line := [] } =
      { r.process line with line := [] } := by
  unfold Reader.process
  split
  · rfl
  · split_ifs
    · rfl
    · unfold Reader.field
      split_ifs <;> rfl

/-- Reading a whole line. -/
theorem Reader.feed_line (hline : r.line = []) (hcr : r.afterCr = false) (h : '\n' ∉ cs ∧ '\r' ∉ cs)
    (rest : List Char) :
    r.feed (cs ++ '\n' :: rest) = Reader.feed { r.process cs with line := [] } rest := by
  rw [Reader.feed_append, Reader.feed_chars hcr h, hline, List.nil_append]
  show Reader.feed (Reader.step _ '\n') rest = _
  unfold Reader.step
  rw [if_pos rfl, if_neg (by simp [hcr])]
  congr 1
  exact Reader.process_line r cs cs

theorem Reader.process_cons {c : Char} (hc : c ≠ ':') (line : List Char) :
    r.process (c :: line) = r.field ((c :: line).takeWhile (· ≠ ':'))
      (Reader.dropBlank (((c :: line).dropWhile (· ≠ ':')).drop 1)) :=
  if_neg hc

theorem Reader.process_field {name value : List Char} (hname : name ≠ []) (hcolon : ':' ∉ name) :
    r.process (name ++ ':' :: ' ' :: value) = r.field name value := by
  have hpos : ∀ c ∈ name, decide (c ≠ ':') = true := fun c hc =>
    decide_eq_true fun heq => hcolon (heq ▸ hc)
  have htake : (name ++ ':' :: ' ' :: value).takeWhile (· ≠ ':') = name := by
    rw [List.takeWhile_append_of_pos hpos]
    simp
  have hdrop : (name ++ ':' :: ' ' :: value).dropWhile (· ≠ ':') = ':' :: ' ' :: value := by
    rw [List.dropWhile_append_of_pos hpos]
    simp
  cases name with
  | nil => exact absurd rfl hname
  | cons c rest =>
      have hc : c ≠ ':' := fun heq => hcolon (heq ▸ List.mem_cons_self)
      rw [List.cons_append, Reader.process_cons hc, ← List.cons_append, htake, hdrop]
      rfl

/-- The line of a field. -/
theorem Reader.feed_field (hline : r.line = []) (hcr : r.afterCr = false) {name value : List Char}
    (hname : name ≠ []) (hplain : ':' ∉ name ∧ '\n' ∉ name ∧ '\r' ∉ name)
    (hvalue : '\n' ∉ value ∧ '\r' ∉ value) (rest : List Char) :
    r.feed (name ++ ':' :: ' ' :: value ++ '\n' :: rest) =
      Reader.feed { r.field name value with line := [] } rest := by
  have hchars : '\n' ∉ name ++ ':' :: ' ' :: value ∧ '\r' ∉ name ++ ':' :: ' ' :: value := by
    simp [hplain.2.1, hplain.2.2, hvalue.1, hvalue.2]
  rw [Reader.feed_line hline hcr hchars, Reader.process_field hname hplain.1]

theorem Reader.feed_item {item : Item} (h : item.WellFormed) (events : List Event) :
    Reader.feed { events } item.text = { events := events ++ item.event?.toList } := by
  cases item with
  | comment text =>
      obtain ⟨hlf, hcr⟩ := h
      have hline : '\n' ∉ ':' :: text ∧ '\r' ∉ ':' :: text := by simp [hlf, hcr]
      show Reader.feed _ ((':' :: text) ++ '\n' :: ([] ++ '\n' :: [])) = _
      rw [Reader.feed_line rfl rfl hline, Reader.feed_line rfl rfl (by simp)]
      rfl
  | event e =>
      obtain ⟨htype, htypeLine, hdataLine⟩ := h
      have htext : (Item.event e).text = eventField ++ ':' :: ' ' :: e.type ++ '\n' ::
          (dataField ++ ':' :: ' ' :: e.data ++ '\n' :: ([] ++ '\n' :: [])) := by
        simp [Item.text]
      rw [htext, Reader.feed_field rfl rfl (by decide +kernel) (by decide +kernel) htypeLine,
        Reader.feed_field rfl rfl (by decide +kernel) (by decide +kernel) hdataLine,
        Reader.feed_line rfl rfl (by simp)]
      show { events := events ++ Reader.pending { type := e.type, data := [e.data] } : Reader } = _
      simp [Reader.pending, htype, Item.event?]

theorem Reader.feed_write {items : List Item} (h : ∀ item ∈ items, item.WellFormed)
    (events : List Event) :
    Reader.feed { events } (write items) = { events := events ++ items.filterMap Item.event? } := by
  induction items generalizing events with
  | nil =>
      rw [List.filterMap_nil, List.append_nil]
      rfl
  | cons item rest ih =>
      obtain ⟨hitem, hrest⟩ := List.forall_mem_cons.1 h
      unfold write at ih ⊢
      rw [List.flatMap_cons, Reader.feed_append, Reader.feed_item hitem, ih hrest, List.append_assoc]
      cases hevent : item.event? with
      | none => rw [List.filterMap_cons_none hevent, Option.toList_none, List.nil_append]
      | some e =>
          rw [List.filterMap_cons_some hevent]
          rfl

/-- What was written is read back; comments are not events. -/
theorem read_write {items : List Item} (h : ∀ item ∈ items, item.WellFormed) :
    read (write items) = items.filterMap Item.event? :=
  congrArg Reader.events (Reader.feed_write h [])

/-- An event whose data was cut off is not dispatched. -/
theorem read_write_cut {items : List Item} (h : ∀ item ∈ items, item.WellFormed)
    {type data : List Char} (htype : '\n' ∉ type ∧ '\r' ∉ type) (hdata : '\n' ∉ data ∧ '\r' ∉ data) :
    read (write items ++ (eventField ++ ':' :: ' ' :: type ++ '\n' ::
      (dataField ++ ':' :: ' ' :: data))) = items.filterMap Item.event? := by
  have hline : '\n' ∉ dataField ++ ':' :: ' ' :: data ∧ '\r' ∉ dataField ++ ':' :: ' ' :: data := by
    simp [dataField, hdata.1, hdata.2]
  unfold read
  rw [Reader.feed_append, Reader.feed_write h,
    Reader.feed_field rfl rfl (by decide +kernel) (by decide +kernel) htype,
    Reader.feed_chars rfl hline]
  rfl

end EventSource
