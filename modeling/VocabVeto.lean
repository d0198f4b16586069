import VocabVeto.ScanSoundness
import VocabVeto.Redaction
import VocabVeto.Invariance
import VocabVeto.GateProofs
import VocabVeto.Parity
import VocabVeto.ModesUsed
import VocabVeto.AuthProofs
import VocabVeto.EnvValues
import VocabVeto.NormalizeExact
import VocabVeto.SpanOrder
import VocabVeto.PlainOutput
import VocabVeto.NewlineSplit
import VocabVeto.ServiceAnswers
import VocabVeto.Core.Build
import VocabVeto.BuildProofs
import VocabVeto.Core.Main
import VocabVeto.Deployment
import VocabVeto.ConfigLoad
import VocabVeto.ModeFilter
import VocabVeto.Core.Command
import VocabVeto.CommandLine
import VocabVeto.Redeployment
import VocabVeto.Chunks
