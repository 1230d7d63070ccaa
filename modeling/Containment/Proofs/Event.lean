import Containment.Event
import Containment.Proofs.Digits
import Mathlib.Data.List.TakeWhile

namespace Containment

/-! A written line read back. Its words are what blanks part. The first of them is the level;
the message goes on up to the first field; a field is a name, an equals sign and a value. -/

namespace Line

def words (line : String) : List (List Char) :=
  line.toList.splitOn ' '

def level (line : String) : String :=
  String.ofList ((words line).headD [])

def message (line : String) : String :=
  String.ofList ([' '].intercalate ((words line).tail.takeWhile fun word => '=' ∉ word))

/-- The value of the first field of that name, up to the next blank. -/
def value? (name line : String) : Option String :=
  ((words line).find? (name.toList ++ ['=']).isPrefixOf).map fun word =>
    String.ofList (word.drop (name.toList.length + 1))

/-- The number in the first field of that name, 0 where there is none. -/
def number (name line : String) : Nat :=
  ((value? name line).map fun value => Nat.ofDigitChars 10 value.toList 0).getD 0

/-! Words. -/

theorem words_append_blank (front back : String) :
    words (front ++ " " ++ back) = words front ++ words back := by
  simp only [words, List.splitOn, String.toList_append, List.append_assoc]
  exact @List.splitOnP_append_cons _ (· == ' ') front.toList back.toList ' ' rfl

theorem words_intercalate (part : String) (parts : List String) :
    words (" ".intercalate (part :: parts)) = words part ++ parts.flatMap words := by
  induction parts generalizing part with
  | nil => simp
  | cons next parts induction =>
      rw [String.intercalate_cons_cons, words_append_blank, induction, List.flatMap_cons]

theorem words_of_plain {text : String} (hplain : ' ' ∉ text.toList) :
    words text = [text.toList] := by
  apply List.splitOnP_eq_singleton
  intro character hcharacter
  exact beq_eq_false_iff_ne.mpr fun heq => hplain (heq ▸ hcharacter)

theorem intercalate_words (text : String) : [' '].intercalate (words text) = text.toList :=
  List.intercalate_splitOn ' '

theorem words_field {name value : String} (hname : ' ' ∉ name.toList)
    (hvalue : ' ' ∉ value.toList) :
    words (name ++ "=" ++ value) = [name.toList ++ '=' :: value.toList] := by
  have htext : (name ++ "=" ++ value).toList = name.toList ++ '=' :: value.toList := by simp
  rw [words_of_plain, htext]
  simp [htext, hname, hvalue]

/-! The names of fields. -/

theorem takeWhile_of_not_mem {name : List Char} (hname : '=' ∉ name) (rest : List Char) :
    (name ++ '=' :: rest).takeWhile (· != '=') = name := by
  rw [List.takeWhile_append_of_pos, List.takeWhile_cons_of_neg, List.append_nil]
  · decide
  · intro character hcharacter
    exact bne_iff_ne.mpr fun heq => hname (heq ▸ hcharacter)

/-- Two names that are each followed by an equals sign are told apart by it. -/
theorem isPrefixOf_field_iff {name other : List Char} (hname : '=' ∉ name)
    (hother : '=' ∉ other) (value : List Char) :
    (name ++ ['=']).isPrefixOf (other ++ '=' :: value) = true ↔ other = name := by
  rw [List.isPrefixOf_iff_prefix]
  constructor
  · rintro ⟨rest, hrest⟩
    rw [List.append_assoc, List.singleton_append] at hrest
    rw [← takeWhile_of_not_mem hother value, ← hrest, takeWhile_of_not_mem hname]
  · rintro rfl
    exact ⟨value, by rw [List.append_assoc, List.singleton_append]⟩

theorem not_isPrefixOf_of_not_mem {word : List Char} (hword : '=' ∉ word) (name : List Char) :
    ¬ (name ++ ['=']).isPrefixOf word = true := by
  rw [List.isPrefixOf_iff_prefix]
  rintro ⟨rest, rfl⟩
  simp at hword

/-- Among the words of fields, the one of a name is that of the first field of that name. -/
theorem find?_words_fields {name : String} (hname : '=' ∉ name.toList)
    {fields : List (String × String)}
    (hnames : ∀ field ∈ fields, ' ' ∉ field.1.toList ∧ '=' ∉ field.1.toList)
    (hvalues : ∀ field ∈ fields, ' ' ∉ field.2.toList) :
    (fields.flatMap fun field => words (field.1 ++ "=" ++ field.2)).find?
        (name.toList ++ ['=']).isPrefixOf =
      (fields.find? fun field => field.1 == name).map fun field =>
        field.1.toList ++ '=' :: field.2.toList := by
  induction fields with
  | nil => rfl
  | cons field fields induction =>
      obtain ⟨⟨hblank, hmark⟩, hnames⟩ := List.forall_mem_cons.mp hnames
      obtain ⟨hvalue, hvalues⟩ := List.forall_mem_cons.mp hvalues
      have hbegins := isPrefixOf_field_iff hname hmark field.2.toList
      rw [List.flatMap_cons, words_field hblank hvalue, List.singleton_append]
      by_cases hsame : field.1 = name
      case pos =>
        have hfound : (field :: fields).find? (fun other => other.1 == name) = some field :=
          List.find?_cons_of_pos (beq_iff_eq.mpr hsame)
        rw [hfound, List.find?_cons_of_pos (hbegins.mpr (congrArg String.toList hsame)),
          Option.map_some]
      case neg =>
        rw [List.find?_cons_of_neg fun heq => hsame (String.toList_inj.mp (hbegins.mp heq)),
          List.find?_cons_of_neg (by simpa using hsame)]
        exact induction hnames hvalues

end Line

namespace Event

/-! What an event has on its line. -/

/-- The values are words, so that a blank ends them. -/
def Plain (event : Event) : Prop :=
  ∀ field ∈ event.fields, ' ' ∉ field.2.toList

theorem blank_not_mem_repr (number : Nat) : ' ' ∉ number.repr.toList := by
  intro hblank
  have hdigit := isDigit_of_mem_repr hblank
  contradiction

theorem blank_not_mem_flagText (flag : Bool) : ' ' ∉ (flagText flag).toList := by
  cases flag <;> decide

theorem blank_not_mem_name (direction : Direction) : ' ' ∉ direction.name.toList := by
  cases direction <;> decide

theorem plain_of_message_ne {event : Event} (hmessage : event.message ≠ "[set-trie] Rejected add") :
    event.Plain := by
  unfold Plain
  cases event with
  | rejected => exact absurd rfl hmessage
  | _ =>
      simp only [fields, List.forall_mem_cons, blank_not_mem_repr, blank_not_mem_flagText,
        blank_not_mem_name, not_false_eq_true, true_and]
      exact fun _ hfield => absurd hfield List.not_mem_nil

theorem name_is_word (event : Event) :
    ∀ field ∈ event.fields, ' ' ∉ field.1.toList ∧ '=' ∉ field.1.toList := by
  have hall : ∀ names ∈ [["nodes_created", "depth"], ["set_size", "inserted"],
      ["input_len", "error"], ["input_len", "found"],
      ["kind", "input_len", "results", "nodes_visited"]],
      ∀ name ∈ names, ' ' ∉ name.toList ∧ '=' ∉ name.toList := by
    decide
  intro field hfield
  refine hall (event.fields.map Prod.fst) ?_ field.1 (List.mem_map_of_mem hfield)
  cases event <;> simp [fields]

theorem mark_not_mem_message (event : Event) :
    ∀ word ∈ Line.words event.message, '=' ∉ word := by
  have hall : ∀ message ∈ ["[set-trie] Extended trie", "[set-trie] Added set",
      "[set-trie] Rejected add", "[set-trie] Lookup", "[set-trie] Containment query"],
      ∀ word ∈ Line.words message, '=' ∉ word := by
    decide
  apply hall
  cases event <;> simp [message]

theorem words_line (event : Event) :
    Line.words event.line = event.level.name.toList ::
      (Line.words event.message ++
        event.fields.flatMap fun field => Line.words (field.1 ++ "=" ++ field.2)) := by
  have hlevel : Line.words event.level.name = [event.level.name.toList] := by
    cases event.level <;> rfl
  rw [line, Line.words_intercalate, hlevel, List.flatMap_cons, List.flatMap_map]
  rfl

/-- The first field begins with a word that has an equals sign in it. -/
theorem exists_words_fields (event : Event) :
    ∃ word rest, '=' ∈ word ∧
      (event.fields.flatMap fun field => Line.words (field.1 ++ "=" ++ field.2)) =
        word :: rest := by
  obtain ⟨field, later, hfields, hvalue⟩ : ∃ field later,
      event.fields = field :: later ∧ ' ' ∉ field.2.toList := by
    cases event with
    | queried direction => exact ⟨_, _, rfl, blank_not_mem_name direction⟩
    | _ => exact ⟨_, _, rfl, blank_not_mem_repr _⟩
  have hname := (event.name_is_word field (hfields ▸ List.mem_cons_self)).1
  rw [hfields, List.flatMap_cons, Line.words_field hname hvalue]
  exact ⟨_, _, List.mem_append_right _ List.mem_cons_self, rfl⟩

theorem level_line (event : Event) : Line.level event.line = event.level.name := by
  rw [Line.level, words_line]
  exact String.ofList_toList

theorem message_line (event : Event) : Line.message event.line = event.message := by
  obtain ⟨word, rest, hmark, hfields⟩ := event.exists_words_fields
  rw [Line.message, words_line, hfields, List.tail_cons, List.takeWhile_append_of_pos,
    List.takeWhile_cons_of_neg, List.append_nil, Line.intercalate_words, String.ofList_toList]
  · simpa using hmark
  · simpa using event.mark_not_mem_message

theorem value?_line {event : Event} (hplain : event.Plain) {name : String}
    (hname : '=' ∉ name.toList) :
    Line.value? name event.line =
      (event.fields.find? fun field => field.1 == name).map Prod.snd := by
  have hlevel : '=' ∉ event.level.name.toList := by cases event.level <;> decide
  have hmessage : (Line.words event.message).find? (name.toList ++ ['=']).isPrefixOf = none :=
    List.find?_eq_none.mpr fun word hword =>
      Line.not_isPrefixOf_of_not_mem (event.mark_not_mem_message word hword) _
  rw [Line.value?, words_line, List.find?_cons_of_neg (Line.not_isPrefixOf_of_not_mem hlevel _),
    List.find?_append, hmessage, Option.none_or,
    Line.find?_words_fields hname event.name_is_word hplain, Option.map_map]
  cases hfound : event.fields.find? fun field => field.1 == name with
  | none => rfl
  | some field =>
      have hsame := List.find?_some hfound
      obtain rfl : field.1 = name := eq_of_beq hsame
      simp

theorem number_line {event : Event} (hmessage : event.message ≠ "[set-trie] Rejected add")
    {name : String} {number : Nat} (hname : '=' ∉ name.toList)
    (hfield : (event.fields.find? fun field => field.1 == name) = some (name, number.repr)) :
    Line.number name event.line = number := by
  rw [Line.number, value?_line (plain_of_message_ne hmessage) hname, hfield, Option.map_some, Option.map_some,
    Nat.toList_repr, Nat.ofDigitChars_ten_toDigits]
  rfl

end Event

/-! Lines are told apart by their message and by the values of some fields. The text of a
rejection may hold anything, so that a pattern for it leaves the fields out. -/

structure Pattern where
  message : String
  fields : List (String × String)
  plain : fields = [] ∨ message ≠ "[set-trie] Rejected add" := by decide
  named : ∀ field ∈ fields, '=' ∉ field.1.toList := by decide

namespace Pattern

def matchesLine (pattern : Pattern) (line : String) : Bool :=
  Line.level line == "DEBUG" && Line.message line == pattern.message &&
    pattern.fields.all fun field => Line.value? field.1 line == some field.2

def matchesEvent (pattern : Pattern) (event : Event) : Bool :=
  event.level == .debug && event.message == pattern.message &&
    pattern.fields.all fun field =>
      (event.fields.find? fun other => other.1 == field.1).map Prod.snd == some field.2

theorem matchesLine_line (pattern : Pattern) (event : Event) :
    pattern.matchesLine event.line = pattern.matchesEvent event := by
  have hlevel : (event.level.name == "DEBUG") = (event.level == .debug) := by
    cases event.level <;> rfl
  rw [matchesLine, matchesEvent, Event.level_line, Event.message_line, hlevel]
  by_cases hsame : event.message = pattern.message
  · congr 1
    rcases pattern.plain with hnil | hne
    · rw [hnil, List.all_nil, List.all_nil]
    · have hplain := Event.plain_of_message_ne (hsame ▸ hne)
      rw [Bool.eq_iff_iff, List.all_eq_true, List.all_eq_true]
      exact forall₂_congr fun field hfield => by
        rw [Event.value?_line hplain (pattern.named field hfield)]
  · rw [beq_eq_false_iff_ne.mpr hsame, Bool.and_false, Bool.false_and, Bool.false_and]

theorem countP_line (pattern : Pattern) (events : List Event) :
    (events.map Event.line).countP pattern.matchesLine = events.countP pattern.matchesEvent := by
  rw [List.countP_map]
  exact congrFun (congrArg List.countP (funext pattern.matchesLine_line)) events

def stored : Pattern where
  message := "[set-trie] Added set"
  fields := [("inserted", "true")]

def repeated : Pattern where
  message := "[set-trie] Added set"
  fields := [("inserted", "false")]

def rejected : Pattern where
  message := "[set-trie] Rejected add"
  fields := []

def lookup : Pattern where
  message := "[set-trie] Lookup"
  fields := []

def hit : Pattern where
  message := "[set-trie] Lookup"
  fields := [("found", "true")]

def query : Pattern where
  message := "[set-trie] Containment query"
  fields := []

def subsetQuery : Pattern where
  message := "[set-trie] Containment query"
  fields := [("kind", "Subsets")]

def supersetQuery : Pattern where
  message := "[set-trie] Containment query"
  fields := [("kind", "Supersets")]

end Pattern

/-! The numbers on a line. -/

namespace Line

def nodesCreated (line : String) : Nat :=
  if level line = "TRACE" then number "nodes_created" line else 0

/-- The size of a set that was not stored before. -/
def newSize? (line : String) : Option Nat :=
  if Pattern.stored.matchesLine line then some (number "set_size" line) else none

def results (line : String) : Nat :=
  if Pattern.query.matchesLine line then number "results" line else 0

def visited (line : String) : Nat :=
  if Pattern.query.matchesLine line then number "nodes_visited" line else 0

end Line

namespace Event

def nodesCreated : Event → Nat
  | .extended nodesCreated _ => nodesCreated
  | _ => 0

def newSize? : Event → Option Nat
  | .added setSize true => some setSize
  | _ => none

def results : Event → Nat
  | .queried _ _ results _ => results
  | _ => 0

def visited : Event → Nat
  | .queried _ _ _ visited => visited
  | _ => 0

theorem nodesCreated_line (event : Event) : Line.nodesCreated event.line = event.nodesCreated := by
  rw [Line.nodesCreated, level_line]
  cases event with
  | extended => exact number_line (by simp [message]) (by decide) rfl
  | _ => rfl

theorem newSize?_line (event : Event) : Line.newSize? event.line = event.newSize? := by
  rw [Line.newSize?, Pattern.matchesLine_line]
  cases event with
  | added size inserted =>
      cases inserted with
      | false => rfl
      | true =>
          exact congrArg some (number_line (by simp [message]) (by decide) rfl)
  | _ => rfl

theorem results_line (event : Event) : Line.results event.line = event.results := by
  rw [Line.results, Pattern.matchesLine_line]
  cases event with
  | queried => exact number_line (by simp [message]) (by decide) rfl
  | _ => rfl

theorem visited_line (event : Event) : Line.visited event.line = event.visited := by
  rw [Line.visited, Pattern.matchesLine_line]
  cases event with
  | queried => exact number_line (by simp [message]) (by decide) rfl
  | _ => rfl

/-! The lines in full. -/

theorem line_extended (created depth : Nat) :
    (extended created depth).line = "TRACE [set-trie] Extended trie nodes_created=" ++
      created.repr ++ " depth=" ++ depth.repr := by
  rw [← String.toList_inj]
  simp [line, level, Level.name, message, fields]

theorem line_added (size : Nat) (inserted : Bool) :
    (added size inserted).line = "DEBUG [set-trie] Added set set_size=" ++ size.repr ++
      " inserted=" ++ flagText inserted := by
  rw [← String.toList_inj]
  simp [line, level, Level.name, message, fields]

theorem line_rejected (length : Nat) (reason : Refusal) :
    (rejected length reason).line = "DEBUG [set-trie] Rejected add input_len=" ++
      length.repr ++ " error=" ++ reason.message := by
  rw [← String.toList_inj]
  simp [line, level, Level.name, message, fields]

theorem line_lookedUp (length : Nat) (found : Bool) :
    (lookedUp length found).line = "DEBUG [set-trie] Lookup input_len=" ++ length.repr ++
      " found=" ++ flagText found := by
  rw [← String.toList_inj]
  simp [line, level, Level.name, message, fields]

theorem line_queried (direction : Direction) (length results visited : Nat) :
    (queried direction length results visited).line =
      "DEBUG [set-trie] Containment query kind=" ++ direction.name ++ " input_len=" ++
        length.repr ++ " results=" ++ results.repr ++ " nodes_visited=" ++ visited.repr := by
  rw [← String.toList_inj]
  simp [line, level, Level.name, message, fields]

end Event

end Containment
