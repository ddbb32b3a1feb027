import Fickle.Composition.Prediction
import Fickle.LineFormat
import Fickle.Proofs.Args
import Fickle.Proofs.Binary64
import Fickle.Proofs.Binary64.Arithmetic
import Fickle.Proofs.Binary64.Bounds
import Fickle.Proofs.Binary64.Faithful
import Fickle.Proofs.Binary64.Rounding
import Fickle.Proofs.Binary64.Truncation
import Fickle.Proofs.Binary64.Value
import Fickle.Proofs.Bytes
import Fickle.Proofs.Cascade
import Fickle.Proofs.Composition.Course
import Fickle.Proofs.Composition.Declared
import Fickle.Proofs.Composition.Distribution
import Fickle.Proofs.Composition.Foretold
import Fickle.Proofs.Composition.Formula
import Fickle.Proofs.Composition.Leaves
import Fickle.Proofs.Composition.Settled
import Fickle.Proofs.Composition.Sites
import Fickle.Proofs.Decimal.Layout
import Fickle.Proofs.Drift.Laws
import Fickle.Proofs.Drift.Reads
import Fickle.Proofs.Drift.Refused
import Fickle.Proofs.Drift.Watch
import Fickle.Proofs.Duration.Text
import Fickle.Proofs.Exact
import Fickle.Proofs.Except
import Fickle.Proofs.Json.Lexer
import Fickle.Proofs.Log.Bounds
import Fickle.Proofs.Log.Codec
import Fickle.Proofs.Log.Damage
import Fickle.Proofs.Log.Header
import Fickle.Proofs.Log.Identity
import Fickle.Proofs.Log.Reading
import Fickle.Proofs.Log.Record
import Fickle.Proofs.Log.Remainder
import Fickle.Proofs.Log.RoundTrip
import Fickle.Proofs.Profile
import Fickle.Proofs.Profile.Deviation
import Fickle.Proofs.Profile.Effective
import Fickle.Proofs.Program
import Fickle.Proofs.Program.Beside
import Fickle.Proofs.Program.Makes
import Fickle.Proofs.Program.Plain
import Fickle.Proofs.Rate.Agreement
import Fickle.Proofs.Rate.Calibration
import Fickle.Proofs.Rate.Pool
import Fickle.Proofs.Rate.Quantile
import Fickle.Proofs.Rate.Schedule
import Fickle.Proofs.Rate.Trials
import Fickle.Proofs.Rate.Verdict
import Fickle.Proofs.Replay.Blame
import Fickle.Proofs.Replay.Client
import Fickle.Proofs.Replay.Couple
import Fickle.Proofs.Replay.Echo
import Fickle.Proofs.Replay.Fidelity
import Fickle.Proofs.Replay.Lookup
import Fickle.Proofs.Replay.Position
import Fickle.Proofs.Sampling
import Fickle.Proofs.Sampling.Closeness
import Fickle.Proofs.Sampling.Draw
import Fickle.Proofs.Sampling.Fractional
import Fickle.Proofs.Sampling.Misfire
import Fickle.Proofs.Sampling.Nominal
import Fickle.Proofs.Sampling.Odds
import Fickle.Proofs.Sampling.Reach
import Fickle.Proofs.Saturation
import Fickle.Proofs.Scenario
import Fickle.Proofs.Scenario.Mixed
import Fickle.Proofs.Session.Accounts
import Fickle.Proofs.Session.Beginning
import Fickle.Proofs.Session.Evaluate
import Fickle.Proofs.Session.Move
import Fickle.Proofs.Session.Recording
import Fickle.Proofs.Session.Reset
import Fickle.Proofs.Session.Saving
import Fickle.Proofs.Session.Script
import Fickle.Proofs.Session.Unseen
import Fickle.Proofs.Settings.Document
import Fickle.Proofs.Settings.Writing
import Fickle.Proofs.Stream
import Fickle.Proofs.Stream.Subseed
import Fickle.Proofs.Tape
import Fickle.Proofs.Text
import Fickle.Proofs.Word
import Fickle.Rate.Calibration
import Fickle.Rate.Runner
import Fickle.Scenario
import Fickle.Settings.Document
import Fickle.Settings.Environment
import Fickle.Proofs.Sampling.Detour
