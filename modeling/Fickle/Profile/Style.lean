/-! # The voice of a personality

How fallbacks, skipped imports and skipped prints are worded.
-/

namespace Fickle

inductive Style where
  | professional
  | friendly
  | snarky
  | chaotic
  deriving DecidableEq

namespace Style

def fallbackMessage (s : Style) (fallback : String) : String :=
  match s with
  | professional => "Expression returned nothing, using fallback: " ++ fallback
  | friendly => "Got nothing there, trying fallback: " ++ fallback
  | snarky => "Well that was useless, falling back to: " ++ fallback
  | chaotic => "*shrugs* That didn't work, whatever: " ++ fallback

def skippedMessage (s : Style) (module : String) : String :=
  match s with
  | professional => "Skipping import of '" ++ module ++ "'"
  | friendly => "Not really feeling like importing '" ++ module ++ "' right now"
  | snarky => "Nah, '" ++ module ++ "' can wait"
  | chaotic => "'" ++ module ++ "'? Maybe later!"

def failedMessage (s : Style) (module : String) : String :=
  match s with
  | professional => "Module '" ++ module ++ "' could not be loaded"
  | friendly => "Couldn't find '" ++ module ++ "', that's okay though"
  | snarky => "'" ++ module ++ "' doesn't exist, shocking"
  | chaotic => "'" ++ module ++ "' went poof!"

/-- What is printed in place of a skipped line; never empty. -/
def shrugs : Style → List String
  | professional => ["[shrug] Output skipped", "[shrug] Deferred"]
  | friendly => ["[shrug] Maybe later?", "[shrug] Not feeling it right now"]
  | snarky => ["[shrug] Meh...", "[shrug] Kinda busy"]
  | chaotic => ["[shrug] *waves hand dismissively*", "[shrug] Nope", "[shrug] Ask again never"]

/-- The shrug of the decision with number `seq`: the shrugs take turns. -/
def shrug (s : Style) (seq : Nat) : String := s.shrugs.getD (seq % s.shrugs.length) ""

end Style

end Fickle
