import Concordance.Analyzer.Stream
import Concordance.Engine.History
import Concordance.Index.History
import Concordance.Main
import Concordance.Proofs.Dict
import Concordance.Proofs.EditDistance
import Concordance.Proofs.Edits
import Concordance.Proofs.Matches
import Concordance.Proofs.Utf8
import Concordance.Proofs.Ranking
import Concordance.Proofs.Stem
import Concordance.Proofs.Corpus
import Concordance.Proofs.CorpusIndex
import Concordance.Proofs.Passes
import Concordance.Proofs.TermPostings
import Concordance.Proofs.Tokens
import Concordance.Proofs.History
import Concordance.Proofs.Satisfaction
import Concordance.Proofs.ValidTerms
import Concordance.Proofs.NearTerms
import Concordance.Proofs.TermMatches
import Concordance.Proofs.PhraseMatches
import Concordance.Proofs.Conjunctions
import Concordance.Proofs.Evaluation
import Concordance.Proofs.Soundness
import Concordance.Proofs.Updates
import Concordance.Proofs.Effects
import Concordance.Proofs.Agreement
import Concordance.Proofs.Reads
import Concordance.Proofs.RoundTrip
import Concordance.Proofs.AcceptedFiles
import Concordance.Proofs.Storage
import Concordance.Proofs.Truncation
import Concordance.Proofs.Grammar
import Concordance.Proofs.ParserCompleteness
import Concordance.Proofs.SoundMatches
import Concordance.Proofs.Faults
import Concordance.Proofs.LoadedSearch
import Concordance.Proofs.NearBounds
import Concordance.Proofs.NearExact
import Concordance.Proofs.CompoundWildcards
import Concordance.Proofs.Paging
import Concordance.Proofs.EngineHistory
import Concordance.Proofs.SaveAndLoad
import Concordance.Proofs.Recall
import Concordance.Proofs.AllOrNothing
import Concordance.Proofs.Alike
import Concordance.Proofs.SynonymClasses
import Concordance.Proofs.Interchange
import Concordance.Proofs.Positions
import Concordance.Proofs.KnownMatches
import Concordance.Proofs.Transcript
import Concordance.Engine.Keeper
import Concordance.Proofs.DraftPaths
import Concordance.Proofs.KeptFile
import Concordance.Proofs.NegatedClauses
import Concordance.Proofs.Silence
import Concordance.Proofs.Explanations
import Concordance.Proofs.PhraseJoin
import Concordance.Proofs.Reflection
import Concordance.Proofs.Explained
import Concordance.Proofs.ExplainedMatches
import Concordance.Proofs.Occurrences
import Concordance.Proofs.NegationFaults
import Concordance.Proofs.RankOrder
import Concordance.Proofs.Beginnings
import Concordance.Proofs.Statistics
import Concordance.Proofs.Streams
import Concordance.Proofs.StemLengths
import Concordance.Proofs.KeptWords
import Concordance.Proofs.Layout
import Concordance.Proofs.FaultPositions
import Concordance.Proofs.Figures
import Concordance.Proofs.RussianStems
import Concordance.Proofs.Measure
import Concordance.Proofs.PorterRules
import Concordance.Proofs.EndingTables
import Concordance.Proofs.PorterSteps
import Concordance.Proofs.Merges
import Concordance.Proofs.BalancedUnion
import Concordance.Stem.Buffer
import Concordance.Proofs.MeasureWalk
import Concordance.Proofs.StemInPlace
