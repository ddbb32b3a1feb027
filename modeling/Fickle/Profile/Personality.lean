import Fickle.Profile

/-! # The built-in personalities -/

namespace Fickle

inductive Personality where
  | reliable
  | cautious
  | playful
  | chaotic
  deriving DecidableEq

namespace Personality

def all : List Personality := [reliable, cautious, playful, chaotic]

def name : Personality → String
  | reliable => "reliable"
  | cautious => "cautious"
  | playful => "playful"
  | chaotic => "chaotic"

def ofName? (s : String) : Option Personality := all.find? fun p => p.name == s

def profile {α : Type} [Scalar α] : Personality → Profile α
  | reliable => {
      name := "reliable"
      table := Table.reliable
      volatility := 0.0
      chaosAmplifier := 0.2
      intFuzzRadius := 1
      floatNoise := 0.001
      repeatSpread := 0.1
      defaultTolerance := 0.5
      ishVariance := 0.5
      driftRate := 0.001
      style := .professional }
  | cautious => {
      name := "cautious"
      table := Table.cautious
      volatility := 0.05
      chaosAmplifier := 0.4
      intFuzzRadius := 1
      floatNoise := 0.005
      repeatSpread := 0.2
      defaultTolerance := 1.0
      ishVariance := 1.0
      driftRate := 0.005
      style := .friendly }
  | playful => {
      name := "playful"
      table := Table.playful
      volatility := 0.1
      chaosAmplifier := 0.7
      intFuzzRadius := 2
      floatNoise := 0.02
      repeatSpread := 0.3
      defaultTolerance := 2.0
      ishVariance := 2.0
      driftRate := 0.02
      style := .snarky }
  | chaotic => {
      name := "chaotic"
      table := Table.chaotic
      volatility := 0.2
      chaosAmplifier := 1.0
      intFuzzRadius := 3
      floatNoise := 0.05
      repeatSpread := 0.5
      defaultTolerance := 5.0
      ishVariance := 5.0
      driftRate := 0.05
      style := .chaotic }

end Personality

end Fickle
