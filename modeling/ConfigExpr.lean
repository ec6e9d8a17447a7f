import ConfigExpr.Main
import ConfigExpr.Proofs.Common
import ConfigExpr.Proofs.Grammar
import ConfigExpr.Proofs.Proper
import ConfigExpr.Proofs.Steps
import ConfigExpr.Proofs.Scans
import ConfigExpr.Proofs.Sound
import ConfigExpr.Proofs.Complete
import ConfigExpr.Proofs.Accepts
import ConfigExpr.Proofs.Rules
import ConfigExpr.Proofs.Builtins
import ConfigExpr.Proofs.Distinct
import ConfigExpr.Proofs.Evaluates
import ConfigExpr.Proofs.Balanced
import ConfigExpr.Proofs.Reads
import ConfigExpr.Proofs.Strings
import ConfigExpr.Proofs.Everywhere
import ConfigExpr.Proofs.Derived
import ConfigExpr.Proofs.Formed
import ConfigExpr.Proofs.Written
import ConfigExpr.Proofs.Regroup
import ConfigExpr.Proofs.Reparse
import ConfigExpr.Proofs.Literals
import ConfigExpr.Proofs.Redisplay
import ConfigExpr.Proofs.Scoping
import ConfigExpr.Proofs.Related
import ConfigExpr.Proofs.Correspondence
import ConfigExpr.Proofs.Arguments
import ConfigExpr.Proofs.ScopeProperty
import ConfigExpr.Proofs.Limits
import ConfigExpr.Proofs.StaticScope
import ConfigExpr.Proofs.FreeNames
import ConfigExpr.Proofs.Reading
import ConfigExpr.Proofs.Lexemes
import ConfigExpr.Proofs.Extents
import ConfigExpr.Proofs.Moved
import ConfigExpr.Proofs.Tiles
import ConfigExpr.Proofs.MovedParse
import ConfigExpr.Proofs.Interpolated
import ConfigExpr.Proofs.Places
import ConfigExpr.Proofs.PlacedParse
import ConfigExpr.Proofs.ErrorPlaces
import ConfigExpr.Proofs.Sessions
import ConfigExpr.Proofs.Relocation
import ConfigExpr.Proofs.SessionBlock
import ConfigExpr.Proofs.Expansions
import ConfigExpr.Proofs.Layout
import ConfigExpr.Proofs.Incomplete
import ConfigExpr.Proofs.BlankedComments
import ConfigExpr.Proofs.Advances
import ConfigExpr.Proofs.LexicalErrors
import ConfigExpr.Proofs.Hereditary
import ConfigExpr.Proofs.DistinctKeys
import ConfigExpr.Proofs.Numbers
import ConfigExpr.Proofs.RepeatedRuns
import ConfigExpr.Proofs.Rounding
import ConfigExpr.Proofs.Decimals
import ConfigExpr.Proofs.FloatLiterals
import ConfigExpr.Proofs.EndMarks
import ConfigExpr.Proofs.Nesting
import ConfigExpr.Proofs.Decided
import ConfigExpr.Proofs.DecidedParse
import ConfigExpr.Proofs.FinalErrors
import ConfigExpr.Proofs.Unions
import ConfigExpr.Proofs.Margins
import ConfigExpr.Proofs.SoleTokens
import ConfigExpr.Proofs.Scalars
import ConfigExpr.Proofs.ArgumentNames
import ConfigExpr.Proofs.BlockStrings
import ConfigExpr.Proofs.EnclosedTokens
import ConfigExpr.Proofs.Renewed
import ConfigExpr.Proofs.Applications
import ConfigExpr.Proofs.MapCalls
import ConfigExpr.Proofs.MapLiterals
import ConfigExpr.Proofs.Folds
import ConfigExpr.Proofs.Counted
import ConfigExpr.Proofs.CountedRuns
import ConfigExpr.Proofs.Resumed
import ConfigExpr.Proofs.IntegerLiterals
import ConfigExpr.Proofs.KeptLines
import ConfigExpr.Proofs.TokenTexts
import ConfigExpr.Proofs.Rounds
import ConfigExpr.Proofs.Window
