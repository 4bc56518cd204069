import FieldSelection.Json.Reader
import FieldSelection.Sink

/-!
# Reading a document event by event

A text is told as events while it is read, so what stands before a fault is told too. The
rules are those of reading it as one value; only nothing is collected, so members of one
name are all told.
-/

namespace FieldSelection.Json

/-- What a reader told, and what follows the part of the text it took, or what is wrong. -/
structure Telling where
  /-- The events, in order. -/
  events : List Event
  /-- The rest of the text. -/
  rest : Reading (List UInt8)

namespace Telling

/-- Tells nothing, and goes on at the end of a reading. -/
def silent (rest : Reading (List UInt8)) : Telling := ⟨[], rest⟩

/-- Tells one event in front. -/
def after (event : Event) (telling : Telling) : Telling :=
  ⟨event :: telling.events, telling.rest⟩

/-- Goes on where a reader stopped, unless something was wrong. -/
def andThen (telling : Telling) (next : List UInt8 → Telling) : Telling :=
  match telling.rest with
  | .error fault => ⟨telling.events, .error fault⟩
  | .ok rest =>
    let more := next rest
    ⟨telling.events ++ more.events, more.rest⟩

/-- Goes on with what was read, unless something was wrong. -/
def ofReading {α : Type} (reading : Reading α) (next : α → Telling) : Telling :=
  match reading with
  | .error fault => silent (.error fault)
  | .ok x => next x

end Telling

open Telling

/-- Tells the elements of an array after its bracket, and its end. -/
def tellElements (item : List UInt8 → Telling) : Nat → Bool → List UInt8 → Telling
  | 0, _, _ => silent (brokenBefore .endOfList [])
  | fuel + 1, first, text =>
    ofReading (nextElement first text) fun
      | .done rest => after (.stop .array) (silent (.ok rest))
      | .element text => (item text).andThen (tellElements item fuel false)

/-- Tells the members of an object after the name of the next one, and its end. -/
def tellMembers (item : List UInt8 → Telling) : Nat → NextMember → Telling
  | _, .done rest => after (.stop .object) (silent (.ok rest))
  | 0, .member name _ => after (.field name) (silent (brokenBefore .endOfObject []))
  | fuel + 1, .member name text =>
    after (.field name) <|
      ofReading (colon text) fun text =>
        (item text).andThen fun rest =>
          ofReading (nextMember false rest) (tellMembers item fuel)

/-- Tells a value, with at most `depth` containers open at once. -/
def tell : Nat → List UInt8 → Telling
  | depth, text =>
    match skipBlanks text with
    | [] => silent (brokenBefore .endOfValue [])
    | b :: rest =>
      if b == byte '[' then
        match depth with
        | 0 => silent (brokenAt .nestedTooDeep (b :: rest))
        | depth + 1 =>
          after (.start .array) (tellElements (tell depth) (rest.length + 1) true rest)
      else if b == byte '\x7b' then
        match depth with
        | 0 => silent (brokenAt .nestedTooDeep (b :: rest))
        | depth + 1 =>
          ofReading (nextMember true rest) fun
            | .member name text =>
              if name = numberName then
                ofReading (colon text) fun text =>
                  ofReading (wantedString .string text) fun (digits, rest) =>
                    ofReading (numberOfText digits) fun n =>
                      after (.scalar (.number n)) (silent (endOfRecord rest))
              else
                after (.start .object)
                  (tellMembers (tell depth) rest.length (.member name text))
            | .done rest =>
              after (.start .object) (tellMembers (tell depth) 0 (.done rest))
      else
        ofReading (scalar (b :: rest)) fun (v, rest) => after (.scalar v) (silent (.ok rest))

/-- The events of a whole document. -/
def stream (text : List UInt8) : Source :=
  let telling := (tell depthLimit text).andThen fun rest =>
    ofReading (endOfDocument rest) fun _ => silent (.ok [])
  match telling.rest with
  | .ok _ => ⟨telling.events, none⟩
  | .error fault => ⟨telling.events, some (.malformed (fault.located text))⟩

end FieldSelection.Json
