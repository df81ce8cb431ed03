import TypeCorpus.Declaration.Json
import TypeCorpus.Json.Reader
import TypeCorpus.Main
import TypeCorpus.Proofs.Corpus.Reading
import TypeCorpus.Proofs.Corpus
import TypeCorpus.Proofs.Kind
import TypeCorpus.Proofs.Registry.Walk
import TypeCorpus.Proofs.Sample.Inheritance
import TypeCorpus.Proofs.Sample.Stage
import TypeCorpus.Proofs.Stub
import TypeCorpus.Proofs.Wire.Comment
import TypeCorpus.Proofs.Wire.Topic
import TypeCorpus.Proofs.Xml.Spelling
import TypeCorpus.Proofs.Schema
import TypeCorpus.Proofs.Files.Enumeration
import TypeCorpus.Proofs.Scan
import TypeCorpus.Proofs.Files.Output
import TypeCorpus.Proofs.Command.Account
import TypeCorpus.Proofs.Command.Summary
import TypeCorpus.Proofs.Command.Contents
import TypeCorpus.Proofs.Command.Order
import TypeCorpus.Proofs.Sample.Alias
import TypeCorpus.Proofs.Sample.Frame
import TypeCorpus.Proofs.Text.Line
import TypeCorpus.Proofs.Stub.Agreement
import TypeCorpus.Proofs.Number.Digits
import TypeCorpus.Proofs.Number.Rounding
import TypeCorpus.Proofs.Number.Shortest
import TypeCorpus.Proofs.Json.Number
import TypeCorpus.Proofs.Json.Text
import TypeCorpus.Proofs.Json.Blank
import TypeCorpus.Proofs.Json.Tree
import TypeCorpus.Proofs.Sample.Rendering
import TypeCorpus.Proofs.Declaration
import TypeCorpus.Proofs.Topic.Collection
import TypeCorpus.Proofs.Topic.Separation
import TypeCorpus.Proofs.Command.Isolation
import TypeCorpus.Proofs.Registry.Order
import TypeCorpus.Proofs.Sample.Shape
import TypeCorpus.Proofs.Document
import TypeCorpus.Proofs.Command.Stubs
