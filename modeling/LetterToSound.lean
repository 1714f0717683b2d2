import LetterToSound.Compile
import LetterToSound.Container.Cursor
import LetterToSound.Container.Plan
import LetterToSound.Container.Section
import LetterToSound.Container.Writer
import LetterToSound.Language.Condition
import LetterToSound.Language.Database
import LetterToSound.Language.Definition
import LetterToSound.Language.Dictionary
import LetterToSound.Language.Image
import LetterToSound.Language.Parser
import LetterToSound.Matching.Rule
import LetterToSound.Matching.Pronouncer
import LetterToSound.Matching.Respeller
import LetterToSound.Number.Single
import LetterToSound.Text.Bytes
import LetterToSound.Outcome
import LetterToSound.Pattern.Source
import LetterToSound.Pattern.Stored
import LetterToSound.Phoneme.Alphabet
import LetterToSound.Phoneme.Feature
import LetterToSound.Phoneme.Explicit
import LetterToSound.Proofs.Container.Emission
import LetterToSound.Settings.Basic
import LetterToSound.Settings.FileTree
import LetterToSound.Settings.Store
import LetterToSound.Source.Reading
import LetterToSound.Source.Lexer
import LetterToSound.Source.Token
import LetterToSound.Text.Pieces
import LetterToSound.Voice.Database
import LetterToSound.Voice.Definition
import LetterToSound.Voice.Image
import LetterToSound.Voice.Parser
import LetterToSound.Yaml.Block
import LetterToSound.Yaml.Document
import LetterToSound.Yaml.Layout
import LetterToSound.Yaml.Scalar
import LetterToSound.Yaml.Spot
import LetterToSound.Yaml.Style
import LetterToSound.Proofs.Container.Reading
import LetterToSound.Proofs.Language.Parts
import LetterToSound.Proofs.Container.Success
import LetterToSound.Proofs.Language.Reload
import LetterToSound.Proofs.Matching.Meaning
import LetterToSound.Proofs.Language.Accepted
import LetterToSound.Proofs.Source.Lexemes
import LetterToSound.Proofs.Source.Loop
import LetterToSound.Proofs.Language.Compiled
import LetterToSound.Proofs.Matching.Dispatch
import LetterToSound.Proofs.Matching.Coverage
import LetterToSound.Proofs.Language.Invariant
import LetterToSound.Proofs.Container.Fields
import LetterToSound.Proofs.Voice.Reload
import LetterToSound.Proofs.Text.Lossy
import LetterToSound.Proofs.Language.Kept
import LetterToSound.Proofs.Pattern.Lookaheads
import LetterToSound.Proofs.Phoneme.ZeroBytes
import LetterToSound.Proofs.Language.Alphabets
import LetterToSound.Proofs.Matching.PhonemeText
import LetterToSound.Proofs.Source.Lines
import LetterToSound.Proofs.Language.Wording
import LetterToSound.Proofs.Language.RuleLines
import LetterToSound.Proofs.Language.RuleBlocks
import LetterToSound.Proofs.Container.Limits
import LetterToSound.Proofs.Container.Sizes
import LetterToSound.Proofs.Container.Duality
import LetterToSound.Proofs.Container.Evidence
import LetterToSound.Proofs.Container.Passage
import LetterToSound.Proofs.Sizes
import LetterToSound.Proofs.Loading
import LetterToSound.Proofs.Language.Accessors
import LetterToSound.Proofs.Matching.Sounding
import LetterToSound.Proofs.Matching.Window
import LetterToSound.Proofs.Matching.Positions
import LetterToSound.Proofs.Matching.Passes
import LetterToSound.Proofs.Pattern.Decoding
import LetterToSound.Proofs.Source.LineEnds
import LetterToSound.Proofs.Source.Spans
import LetterToSound.Proofs.Text.Pieces
import LetterToSound.Proofs.Phoneme.Families
import LetterToSound.Proofs.Phoneme.FeatureText
import LetterToSound.Proofs.Phoneme.SymbolText
import LetterToSound.Proofs.Container.Refusal
import LetterToSound.Proofs.Container.Pooling
import LetterToSound.Proofs.Number.FixedPoint
import LetterToSound.Proofs.Voice.Volume
import LetterToSound.Proofs.Container.Truncation
import LetterToSound.Proofs.Language.Written
import LetterToSound.Proofs.Language.Truncation
import LetterToSound.Proofs.Language.Flags
import LetterToSound.Proofs.Phoneme.FeatureSets
import LetterToSound.Proofs.Phoneme.SymbolGrammar
import LetterToSound.Proofs.Language.BlockOrder
